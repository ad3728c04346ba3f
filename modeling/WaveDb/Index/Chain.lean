import WaveDb.Index.Sparse

-- The record chain: a doubly linked run of sorted segments with a sparse index above
-- it. `writes` is both the batch so far and what the view of the next step has staged.
namespace WaveDb.Index

open WaveDb.Lib WaveDb.Core

-- `index` is `none` for the removal log, which nothing searches. A segment
-- holds `min` to `2 * min` entries.
structure Chain where
  head : LocalId
  tail : LocalId
  tenant : Nat
  laneHash : Nat
  index : Option SparseTree
  min : Nat
  deriving DecidableEq

-- The segment, its id, and the separator it is filed under today.
structure Side (K P : Type) where
  id : LocalId
  seg : Segment K P
  was : Option K

namespace Chain

variable {V K P : Type} [LaneCodec V (Segment K P)]

def put (c : Chain) (id : LocalId) (seg : Segment K P) : Write V :=
  .put (id.toId c.tenant) (LaneCodec.toBytes c.laneHash seg)

def erase (c : Chain) (id : LocalId) : Write V := .remove c.laneHash (id.toId c.tenant)

def load (c : Chain) (id : LocalId) : Engine V (Segment K P) := do
  match ← Engine.getOf c.laneHash (id.toId c.tenant) with
  | none => .fail (.chainNodeMissing id)
  | some bytes => Prog.ofExcept (LaneCodec.fromBytes c.laneHash bytes)

def seed (tenant laneHash : Nat) (index : Option SparseTree) (min : Nat) (K P : Type)
    [LaneCodec V (Segment K P)] : Engine V (Chain × Write V) := do
  let only ← mintLaneId laneHash
  let c : Chain := ⟨only, only, tenant, laneHash, index, min⟩
  return (c, c.put only (⟨none, none, []⟩ : Segment K P))

def planCreate (tenant laneHash indexHash min cap : Nat) (K P : Type)
    [LaneCodec V (Segment K P)] [LaneCodec V (SparseNode K)] :
    Engine V (Chain × List (Write V)) := do
  let (index, indexWrite) ← SparseTree.planCreate (K := K) tenant indexHash cap
  let (c, write) ← seed tenant laneHash (some index) min K P
  return (c, [write, indexWrite])

def planCreateLog (tenant laneHash min : Nat) (K P : Type) [LaneCodec V (Segment K P)] :
    Engine V (Chain × List (Write V)) := do
  let (c, write) ← seed tenant laneHash none min K P
  return (c, [write])

def relink (c : Chain) (K P : Type) [LaneCodec V (Segment K P)] (writes : List (Write V))
    (id : LocalId) (target : Option LocalId) (setNext : Bool) : Engine V (List (Write V)) := do
  let seg : Segment K P ← Engine.onView writes (c.load id)
  return writes ++ [c.put id
    (if setNext then { seg with next := target } else { seg with prev := target })]

-- The neighbour `outer` now names `id`. Where there is none, `id` is the new endpoint.
def attach (c : Chain) (K P : Type) [LaneCodec V (Segment K P)] (writes : List (Write V))
    (outer : Option LocalId) (id : LocalId) (setNext : Bool) :
    Engine V (Chain × List (Write V)) :=
  match outer with
  | some outer => do return (c, ← c.relink K P writes outer (some id) setNext)
  | none => return (if setNext then { c with head := id } else { c with tail := id }, writes)

variable [LaneCodec V (SparseNode K)] [LinearOrder K]

-- Steps back from the tail until a segment's least key is not above `key`.
def walkBackTo (c : Chain) (key : K) : Nat → LocalId → Engine V (LocalId × Segment K P)
  | 0, _ => .stuck
  | fuel + 1, id => do
      let seg ← c.load id
      match seg.prev with
      | none => return (id, seg)
      | some prev =>
        if seg.firstKey.any (key < ·) then c.walkBackTo key fuel prev else return (id, seg)

-- The segment covering `key`. A key below every separator is the head's.
def locate (c : Chain) (fuel : Nat) (key : K) : Engine V (LocalId × Segment K P) :=
  match c.index with
  | none => c.walkBackTo key fuel c.tail
  | some index => do
      let id :=
        match ← index.find fuel key with
        | some slot => slot.seg
        | none => c.head
      return (id, ← c.load id)

def get (c : Chain) (fuel : Nat) (key : K) : Engine V (Option P) := do
  let (_, seg) ← c.locate fuel key
  return seg.get key

def unfile (index : SparseTree) (fuel : Nat) (writes : List (Write V)) (old : K) :
    Engine V (List (Write V)) := do
  let batch ← Engine.onView writes (index.planRemove fuel old)
  return writes ++ batch

def file (index : SparseTree) (fuel : Nat) (writes : List (Write V)) (slot : Slot K) :
    Engine V (List (Write V)) := do
  let batch ← Engine.onView writes (index.planUpsert fuel slot)
  return writes ++ batch

def unfileMoved (index : SparseTree) (fuel : Nat) (writes : List (Write V)) (was now : Option K) :
    Engine V (List (Write V)) :=
  match was with
  | some old => if was ≠ now then unfile index fuel writes old else return writes
  | none => return writes

-- Files a segment under its least key, and drops the entry it used to sit
-- under when that key moved. The removal log has no separators to keep.
def reindex (c : Chain) (fuel : Nat) (writes : List (Write V)) (was : Option K) (id : LocalId)
    (seg : Segment K P) : Engine V (List (Write V)) :=
  match c.index with
  | none => return writes
  | some index => do
      let writes ← unfileMoved index fuel writes was seg.firstKey
      match seg.firstKey with
      | some first => file index fuel writes ⟨first, id, seg.len⟩
      | none => return writes

-- The tail keeps its id and the newer half; any other segment keeps the lower half.
def split (c : Chain) (fuel : Nat) (writes : List (Write V)) (id : LocalId) (seg : Segment K P)
    (was : Option K) : Engine V (Chain × List (Write V)) := do
  let lower := seg.entries.take (seg.entries.length / 2)
  let upper := seg.entries.drop (seg.entries.length / 2)
  let fresh ← mintLaneId c.laneHash
  if id = c.tail then
    let made : Segment K P := ⟨seg.prev, some id, lower⟩
    let kept : Segment K P := ⟨some fresh, seg.next, upper⟩
    let (c, writes) ← c.attach K P writes seg.prev fresh true
    let writes := writes ++ [c.put id kept, c.put fresh made]
    let writes ← c.reindex fuel writes was fresh made
    return (c, ← c.reindex fuel writes none id kept)
  else
    let made : Segment K P := ⟨some id, seg.next, upper⟩
    let kept : Segment K P := ⟨seg.prev, some fresh, lower⟩
    let (c, writes) ← c.attach K P writes seg.next fresh false
    let writes := writes ++ [c.put id kept, c.put fresh made]
    let writes ← c.reindex fuel writes was id kept
    return (c, ← c.reindex fuel writes none fresh made)

def planInsert (c : Chain) (fuel : Nat) (key : K) (payload : P) :
    Engine V (Chain × List (Write V)) := do
  let (id, seg) : LocalId × Segment K P ← Engine.onView [] (c.locate fuel key)
  let was := seg.firstKey
  let seg := seg.insert key payload
  if c.min * 2 ≤ seg.len then c.split fuel [] id seg was
  else return (c, ← c.reindex fuel [c.put id seg] was id seg)

def redistribute (c : Chain) (fuel : Nat) (writes : List (Write V)) (left right : Side K P) :
    Engine V (List (Write V)) := do
  let all := left.seg.entries ++ right.seg.entries
  let l : Segment K P := { left.seg with entries := all.take ((all.length + 1) / 2) }
  let r : Segment K P := { right.seg with entries := all.drop ((all.length + 1) / 2) }
  let writes := writes ++ [c.put left.id l, c.put right.id r]
  let writes ← c.reindex fuel writes left.was left.id l
  c.reindex fuel writes right.was right.id r

def refile (c : Chain) (fuel : Nat) (writes : List (Write V)) (gone : Option K)
    (kept : Side K P) : Engine V (List (Write V)) :=
  match c.index, gone with
  | some index, some old => do
      let writes ← unfile index fuel writes old
      c.reindex fuel writes kept.was kept.id kept.seg
  | _, _ => c.reindex fuel writes kept.was kept.id kept.seg

-- Folds the pair into one segment. An endpoint is never the one deleted.
def merge (c : Chain) (fuel : Nat) (writes : List (Write V)) (left right : Side K P) :
    Engine V (Chain × List (Write V)) := do
  let all := left.seg.entries ++ right.seg.entries
  if left.id = c.head ∨ right.id ≠ c.tail then
    let kept : Segment K P := ⟨left.seg.prev, right.seg.next, all⟩
    let (c, writes) ← c.attach K P writes right.seg.next left.id false
    let writes := writes ++ [c.erase right.id, c.put left.id kept]
    return (c, ← c.refile fuel writes right.was ⟨left.id, kept, left.was⟩)
  else
    let kept : Segment K P := ⟨left.seg.prev, right.seg.next, all⟩
    let (c, writes) ← c.attach K P writes left.seg.prev right.id true
    let writes := writes ++ [c.erase left.id, c.put right.id kept]
    return (c, ← c.refile fuel writes left.was ⟨right.id, kept, right.was⟩)

-- Merges or redistributes the starved segment with the neighbour at `other`.
def rebalance (c : Chain) (fuel : Nat) (writes : List (Write V)) (starved : Side K P)
    (other : LocalId) : Engine V (Chain × List (Write V)) := do
  let seg : Segment K P ← Engine.onView writes (c.load other)
  let mate : Side K P := ⟨other, seg, seg.firstKey⟩
  let (left, right) :=
    if starved.seg.next = some other then (starved, mate) else (mate, starved)
  if c.min * 2 ≤ left.seg.len + right.seg.len then
    return (c, ← c.redistribute fuel writes left right)
  else c.merge fuel writes left right

-- `none` if the chain does not hold the key. A lone segment has no neighbour to
-- rebalance against.
def planRemove (c : Chain) (fuel : Nat) (key : K) (P : Type) [LaneCodec V (Segment K P)] :
    Engine V (Chain × Option (List (Write V))) := do
  let (id, seg) : LocalId × Segment K P ← Engine.onView [] (c.locate fuel key)
  let was := seg.firstKey
  match seg.remove key with
  | none => return (c, none)
  | some seg =>
    match (if seg.len ≤ c.min / 2 then seg.next.orElse fun _ => seg.prev else none) with
    | some other => do
        let (c, writes) ← c.rebalance fuel [] ⟨id, seg, was⟩ other
        return (c, some writes)
    | none => do
        let writes ← c.reindex fuel [c.put id seg] was id seg
        return (c, some writes)

end Chain

end WaveDb.Index
