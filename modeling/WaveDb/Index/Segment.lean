import WaveDb.Index.BpTree
import WaveDb.Core.Overlay

-- The chain segment: a doubly linked run of sorted entries, stored as one value.
namespace WaveDb.Index

open WaveDb.Lib WaveDb.Core

inductive Lane
  | records
  | recency
  | dead
  | index
  deriving DecidableEq, Repr

-- Values of one lane carry its hash as their tag.
class LaneCodec (V X : Type) where
  toBytes : Nat → X → V
  fromBytes : Nat → V → Except Error X
  fromBytes_toBytes : ∀ laneHash x, fromBytes laneHash (toBytes laneHash x) = .ok x

def mintLaneId {V : Type} (laneHash : Nat) : Engine V LocalId := do
  let key ← Engine.keyNanos
  return LocalId.new key true (typeSalt laneHash)

theorem asks_mintLaneId {V : Type} {tenant : Nat} (laneHash : Nat) :
    (mintLaneId laneHash : Engine V LocalId).Asks (Op.ReadsIn tenant) :=
  asks_keyNanos.bind fun _ => trivial

structure Segment (K P : Type) where
  prev : Option LocalId
  next : Option LocalId
  entries : List (K × P)
  deriving DecidableEq

namespace Segment

variable {K P : Type}

def firstKey (seg : Segment K P) : Option K := seg.entries.head?.map Prod.fst

def lastKey (seg : Segment K P) : Option K := seg.entries.getLast?.map Prod.fst

def len (seg : Segment K P) : Nat := seg.entries.length

variable [LinearOrder K]

def position (seg : Segment K P) (key : K) : Except Nat Nat :=
  binarySearch (seg.entries.map Prod.fst) key

def get (seg : Segment K P) (key : K) : Option P :=
  match seg.position key with
  | .ok i => seg.entries[i]?.map Prod.snd
  | .error _ => none

def insert (seg : Segment K P) (key : K) (payload : P) : Segment K P :=
  match seg.position key with
  | .ok i => { seg with entries := seg.entries.modify i fun e => (e.1, payload) }
  | .error i => { seg with entries := seg.entries.insertIdx i (key, payload) }

def remove (seg : Segment K P) (key : K) : Option (Segment K P) :=
  match seg.position key with
  | .ok i => some { seg with entries := seg.entries.eraseIdx i }
  | .error _ => none

end Segment

end WaveDb.Index
