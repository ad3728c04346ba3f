import WaveDb.Core.Store
import WaveDb.Lib.Table
import WaveDb.Storage.Block
import WaveDb.Wire.RoundTrip

-- What is written to `data.bin`: pages, dictionaries and chunks, and how each fills
-- whole blocks.
namespace WaveDb.Core

def Id.asTriple (id : Id) : Nat ×ₗ Nat ×ₗ Nat := toLex (id.key, toLex (id.tenant, id.lower))

theorem Id.asTriple_injective : Function.Injective Id.asTriple := by
  rintro ⟨k, t, l⟩ ⟨k', t', l'⟩ h
  simp only [Id.asTriple, EmbeddingLike.apply_eq_iff_eq, Prod.mk.injEq] at h
  simp [h]

instance : LinearOrder Id := LinearOrder.lift' Id.asTriple Id.asTriple_injective

end WaveDb.Core

namespace WaveDb.Storage

open WaveDb.Lib WaveDb.Core

abbrev Bytes := List UInt8

inductive StorageError
  | io
  | badMagic
  | badVersion (version : Nat)
  | outOfBounds (need found : Nat)
  | runOverflow (got cap : Nat)
  | corrupt (what : String)
  | unregisteredStructHash (hash : Nat)
  | core (error : Core.Error)
  deriving DecidableEq

def structHashOf (bytes : Bytes) : Except StorageError Nat :=
  if bytes.length < 8 then .error (.corrupt "record shorter than STRUCT_HASH")
  else .ok (ofLeBytes (bytes.take 8))

structure Superblock where
  version : Nat
  seed : Nat
  deriving DecidableEq

abbrev Records := Table Id Bytes

structure SlotPage where
  structHash : Nat
  records : Records
  deriving DecidableEq

-- As it is, or compressed against the state of the dictionary that had `dictLen` bytes.
inductive PagePayload (Frame : Type)
  | raw (body : Records)
  | zstd (dictLen : Nat) (frame : Frame)
  deriving DecidableEq

structure PageEnvelope (Frame : Type) where
  structHash : Nat
  payload : PagePayload Frame
  deriving DecidableEq

-- One type's descriptor changes in a round: the bucket count after it, the
-- buckets that moved, and the dictionary's descriptor if that changed.
structure SlotEdit where
  structHash : Nat
  buckets : Nat
  changed : List (Nat × Nat)
  dict : Option Nat
  deriving DecidableEq

-- What one settle window changed. `prev` is the raw descriptor of the chunk
-- written before this one; a descriptor of no blocks ends the chain.
structure EditChunk where
  prev : Nat
  slots : List SlotEdit
  deriving DecidableEq

namespace EditChunk

open WaveDb.Wire

def wireEnv : Env where
  decl
    | 0 => .struct [.scalar .u64, .scalar .u32, .vec (.tuple [.scalar .u32, .scalar .u64]),
        .option (.scalar .u64)]
    | 1 => .struct [.scalar .u64, .vec (.derived 0)]
    | _ => .struct []
  size
    | 0 => 17
    | 1 => 12
    | _ => 0
  size_eq
    | 0 => rfl
    | 1 => rfl
    | _ + 2 => rfl

def u32 (n : Nat) : Val wireEnv (.scalar .u32) := .scalar (BitVec.ofNat _ n)

def u64 (n : Nat) : Val wireEnv (.scalar .u64) := .scalar (BitVec.ofNat _ n)

def changedUnits : List (Nat × Nat) → Units wireEnv (.tuple [.scalar .u32, .scalar .u64])
  | [] => .nil
  | (bucket, raw) :: rest => .cons (.tuple (.cons (u32 bucket) (.cons (u64 raw) .nil)))
      (changedUnits rest)

def dictVal : Option Nat → Val wireEnv (.option (.scalar .u64))
  | none => .none
  | some raw => .some (u64 raw)

def slotVal (edit : SlotEdit) : Val wireEnv (.derived 0) :=
  .struct rfl (.cons (u64 edit.structHash) (.cons (u32 edit.buckets)
    (.cons (.vec (changedUnits edit.changed)) (.cons (dictVal edit.dict) .nil))))

def slotUnits : List SlotEdit → Units wireEnv (.derived 0)
  | [] => .nil
  | edit :: rest => .cons (slotVal edit) (slotUnits rest)

def value (chunk : EditChunk) : Val wireEnv (.derived 1) :=
  .struct rfl (.cons (u64 chunk.prev) (.cons (.vec (slotUnits chunk.slots)) .nil))

-- The length prefix, the crc and the wire form.
def byteLen (chunk : EditChunk) : Nat := 4 + (4 + (toWire chunk.value).length)

def slotShape (edit : SlotEdit) : Nat × Bool := (edit.changed.length, edit.dict.isSome)

def shapeLen (shape : Nat × Bool) : Nat := 17 + 12 * shape.1 + if shape.2 then 8 else 0

theorem heapSize_changedUnits (changed : List (Nat × Nat)) :
    (changedUnits changed).heapSize = 12 * changed.length := by
  induction changed with
  | nil => rfl
  | cons c rest ih =>
    obtain ⟨bucket, raw⟩ := c
    rw [changedUnits, Units.heapSize, ih, List.length_cons]
    have hstack : wireEnv.stackSize (.tuple [.scalar .u32, .scalar .u64]) = 12 := rfl
    have hheap : (Val.tuple (.cons (u32 bucket) (.cons (u64 raw) .nil)) :
        Val wireEnv (.tuple [.scalar .u32, .scalar .u64])).heapSize = 0 := rfl
    rw [hstack, hheap]
    omega

theorem heapSize_dictVal (dict : Option Nat) :
    (dictVal dict).heapSize = if dict.isSome then 8 else 0 := by
  cases dict with
  | none => rfl
  | some raw => rfl

theorem heapSize_slotUnits (slots : List SlotEdit) :
    (slotUnits slots).heapSize = (slots.map fun edit => shapeLen (slotShape edit)).sum := by
  induction slots with
  | nil => rfl
  | cons edit rest ih =>
    rw [slotUnits, Units.heapSize, ih, List.map_cons, List.sum_cons]
    have hstack : wireEnv.stackSize (.derived 0) = 17 := rfl
    have hheap : (slotVal edit).heapSize = 12 * edit.changed.length +
        if edit.dict.isSome then 8 else 0 := by
      simp only [slotVal, Val.heapSize, Fields.heapSize, u64, u32, heapSize_changedUnits,
        heapSize_dictVal]
      omega
    have hshape : shapeLen (slotShape edit) = 17 + 12 * edit.changed.length +
        if edit.dict.isSome then 8 else 0 := rfl
    rw [hstack, hheap, hshape]
    omega

theorem byteLen_eq (chunk : EditChunk) :
    chunk.byteLen = 20 + (chunk.slots.map fun edit => shapeLen (slotShape edit)).sum := by
  have hheap : chunk.value.heapSize = (slotUnits chunk.slots).heapSize := by
    simp only [value, Val.heapSize, Fields.heapSize, u64]
    omega
  have hstack : wireEnv.stackSize (.derived 1) = 12 := rfl
  rw [byteLen, length_toWire, hheap, heapSize_slotUnits, hstack]
  omega

structure Fits (chunk : EditChunk) : Prop where
  prev : chunk.prev < 2 ^ 64
  slots : ∀ edit ∈ chunk.slots, edit.structHash < 2 ^ 64 ∧ edit.buckets < 2 ^ 32 ∧
    (∀ c ∈ edit.changed, c.1 < 2 ^ 32 ∧ c.2 < 2 ^ 64) ∧ ∀ raw ∈ edit.dict, raw < 2 ^ 64
  len : chunk.byteLen < 2 ^ 32

end EditChunk

-- An encoded envelope of `len` bytes, zero-padded to whole blocks.
structure Image (Blk : Type) where
  len : Nat
  blocks : List Blk
  pos : 0 < len
  length_blocks : blocks.length = blocksFor len

-- How blocks carry the envelopes, each behind a length of four bytes. Compression
-- undoes itself against the same dictionary bytes, and leaves a body alone when that is
-- no longer.
class Media (Blk : Type) where
  Frame : Type
  zero : Blk
  superblock : Superblock → Blk
  readSuperblock : Blk → Except StorageError Superblock
  readSuperblock_superblock (s : Superblock) : readSuperblock (superblock s) = .ok s
  readSuperblock_zero : readSuperblock zero = .error .badMagic
  compress : Bytes → Records → Option Frame
  decompress : Bytes → Frame → Option Records
  decompress_compress {dict : Bytes} {body : Records} {frame : Frame} :
    compress dict body = some frame → decompress dict frame = some body
  page : PageEnvelope Frame → Image Blk
  readPage : List Blk → Except StorageError (PageEnvelope Frame)
  readPage_page {e : PageEnvelope Frame} : (page e).len < 2 ^ 32 → readPage (page e).blocks = .ok e
  pageBytes : List Blk → Option (Image Blk)
  pageBytes_page {e : PageEnvelope Frame} : (page e).len < 2 ^ 32 →
    pageBytes (page e).blocks = some (page e)
  dictionary : Bytes → Image Blk
  readDictionary : List Blk → Except StorageError Bytes
  readDictionary_dictionary {buf : Bytes} : (dictionary buf).len < 2 ^ 32 →
    readDictionary (dictionary buf).blocks = .ok buf
  chunk : EditChunk → Image Blk
  len_chunk (c : EditChunk) : (chunk c).len = c.byteLen
  readChunk : List Blk → Except StorageError EditChunk
  readChunk_chunk {c : EditChunk} : c.Fits → readChunk (chunk c).blocks = .ok c

-- Blocks that keep an envelope as it is. Nothing is compressed.
inductive PlainBlock
  | zero
  | superblock (s : Superblock)
  | page (e : PageEnvelope Empty)
  | dictionary (buf : Bytes)
  | chunk (c : EditChunk)

namespace PlainBlock

def single (block : PlainBlock) : Image PlainBlock where
  len := 1
  blocks := [block]
  pos := Nat.one_pos
  length_blocks := by simp [blocksFor, blockSize]

theorem blocksFor_pos {n : Nat} (h : 0 < n) : 0 < blocksFor n := by
  rw [blocksFor, blockSize]
  omega

theorem byteLen_pos (c : EditChunk) : 0 < c.byteLen := by
  rw [EditChunk.byteLen_eq]
  exact Nat.add_pos_left (by decide) _

def chunkImage (c : EditChunk) : Image PlainBlock where
  len := c.byteLen
  blocks := .chunk c :: List.replicate (blocksFor c.byteLen - 1) .zero
  pos := byteLen_pos c
  length_blocks := by
    rw [List.length_cons, List.length_replicate]
    exact Nat.sub_add_cancel (blocksFor_pos (byteLen_pos c))

instance : Media PlainBlock where
  Frame := Empty
  zero := .zero
  superblock := .superblock
  readSuperblock
    | .superblock s => .ok s
    | _ => .error .badMagic
  readSuperblock_superblock _ := rfl
  readSuperblock_zero := rfl
  compress _ _ := none
  decompress _ frame := nomatch frame
  decompress_compress h := nomatch h
  page e := single (.page e)
  readPage
    | .page e :: _ => .ok e
    | _ => .error (.corrupt "page envelope")
  readPage_page _ := rfl
  pageBytes
    | .page e :: _ => some (single (.page e))
    | _ => none
  pageBytes_page _ := rfl
  dictionary buf := single (.dictionary buf)
  readDictionary
    | .dictionary buf :: _ => .ok buf
    | _ => .error (.corrupt "dictionary body")
  readDictionary_dictionary _ := rfl
  chunk := chunkImage
  len_chunk _ := rfl
  readChunk
    | .chunk c :: _ => .ok c
    | _ => .error (.corrupt "chunk body")
  readChunk_chunk _ := rfl

end PlainBlock

end WaveDb.Storage
