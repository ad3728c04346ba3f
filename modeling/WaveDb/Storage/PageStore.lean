import WaveDb.Storage.Alloc
import WaveDb.Storage.Edit

-- The engine in memory, its journal handle, and the read and write paths.
namespace WaveDb.Storage

open WaveDb.Lib WaveDb.Core

-- An open journal. `syncs` counts the barriers since it was opened.
structure Journal where
  ts : Nat
  syncs : Nat
  deriving DecidableEq

-- A journal that waits for the frame that covers it to be durable, which it is once
-- that journal has more barriers than `frameBarrier`.
structure Retiring where
  journal : Journal
  frameBarrier : Nat
  deriving DecidableEq

abbrev Touched := List (Nat × List Id)

-- How far a `commit_journal` under way has come, with what it holds.
inductive Checkpoint
  | idle
  | claimed (pending : Option Retiring)
  | rotated (pending : Option Retiring) (old : Journal)
  | draining (old : Journal)
  | drained (old : Journal)
  | synced (old : Journal)
  deriving DecidableEq

structure Mem where
  journal : Journal
  alloc : BlockAllocator
  metaLog : MetaLog
  retiring : Option Retiring
  slots : Nat → StructStorage
  seed : Nat
  pending : Touched
  checkpoint : Checkpoint

-- What a store is opened with. Types are in the order of their hashes, each
-- with its compression switch; `relaxed` is a nonzero relax window.
structure Config where
  types : List (Nat × Bool)
  sorted : types.Pairwise fun a b => a.1 < b.1
  bounded : ∀ t ∈ types, t.1 < 2 ^ 64
  hashOf : Nat → Id → Nat
  relaxed : Bool

namespace Config

def hashes (cfg : Config) : List Nat := cfg.types.map Prod.fst

def registered (cfg : Config) (hash : Nat) : Bool := cfg.hashes.contains hash

def freshSlots (cfg : Config) : Nat → StructStorage := fun hash =>
  .fresh ((cfg.types.find? fun t => t.1 = hash).any Prod.snd)

end Config

variable {Blk : Type} [Media Blk] (cfg : Config)

abbrev Engine (Blk α : Type) := Io Blk Mem α

def mem : Engine Blk Mem := Act.read fun w => w.mem

def setMem (f : Mem → Mem) : Engine Blk Unit := Act.modify fun w => { w with mem := f w.mem }

def Mem.setSlot (m : Mem) (hash : Nat) (f : StructStorage → StructStorage) : Mem :=
  { m with slots := Function.update m.slots hash (f (m.slots hash)) }

section Journal

-- The clock in nanoseconds, but past `after` in any case.
def nextTs (after : Nat) : Io Blk Mem Nat := do
  let v ← ask
  return max v.now (after + 1)

def Journal.create (ts : Nat) : Io Blk Mem Journal := do
  createFile ts
  return ⟨ts, 0⟩

end Journal

section Read

def readPage (slot : StructStorage) (hash : Nat) (dir : Directory) (bucket : Nat) :
    Engine Blk SlotPage :=
  if (dir.descriptor bucket).isAllocated then do
    let blocks ← readRun (dir.descriptor bucket).run
    Act.lift (SlotPage.fromBytes blocks slot.dict.buf)
  else return .new hash

def readFromPages (seed hash : Nat) (slot : StructStorage) (id : Id) :
    Engine Blk (Option Bytes) :=
  if id ∈ slot.dead then return none
  else
    match slot.dir with
    | none => return none
    | some dir => do
        let page ← readPage slot hash dir (dir.bucketOf (cfg.hashOf seed id))
        return page.get id

-- `get_of`: the cache, then the tombstones, then the pages.
def readOf (hash : Nat) (id : Id) : Engine Blk (Option Bytes) := do
  let m ← mem
  if cfg.registered hash then
    match (m.slots hash).cache.get id with
    | some bytes => return some bytes
    | none => readFromPages cfg m.seed hash (m.slots hash) id
  else return none

end Read

section Apply

def routeOf : Write Bytes → Except StorageError Nat
  | .put _ bytes => structHashOf bytes
  | .remove hash _ => .ok hash
  | .expect hash _ _ => .ok hash

def routeBatch : List (Write Bytes) → Except StorageError Unit
  | [] => .ok ()
  | write :: batch => do
      let hash ← routeOf write
      if cfg.registered hash then routeBatch batch
      else .error (.unregisteredStructHash hash)

def noteTouched (touched : Touched) (hash : Nat) (id : Id) : Touched :=
  if touched.any fun t => t.1 = hash then
    touched.map fun t => if t.1 = hash then (t.1, t.2 ++ [id]) else t
  else touched ++ [(hash, [id])]

def mergeTouched (pending touched : Touched) : Touched :=
  touched.foldl (fun pending t => t.2.foldl (fun pending id => noteTouched pending t.1 id) pending)
    pending

end Apply

section Routed

variable {cfg}

def Routed (cfg : Config) (write : Write Bytes) : Prop := ∃ hash ∈ cfg.hashes, routeOf write = .ok hash

theorem routed_of_routeBatch {batch : List (Write Bytes)} (h : routeBatch cfg batch = .ok ()) :
    ∀ write ∈ batch, Routed cfg write := by
  induction batch with
  | nil => simp
  | cons write batch ih =>
    obtain ⟨hash, hroute, hrest⟩ := bind_eq_ok.mp h
    have hreg : cfg.registered hash = true := by
      by_contra hreg
      rw [if_neg hreg] at hrest
      cases hrest
    rw [if_pos hreg] at hrest
    intro write' hmem
    rcases List.mem_cons.mp hmem with rfl | hmem
    · exact ⟨hash, by simpa [Config.registered] using hreg, hroute⟩
    · exact ih hrest write' hmem

end Routed

end WaveDb.Storage
