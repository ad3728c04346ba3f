import WaveDb.Index.Segment

-- The sparse index: one entry per chain segment, with its element count.
namespace WaveDb.Index

open WaveDb.Lib WaveDb.Core

structure Slot (K : Type) where
  first : K
  seg : LocalId
  count : Nat
  deriving DecidableEq

structure Branch (K : Type) where
  first : K
  node : LocalId
  count : Nat
  deriving DecidableEq

inductive SparseNode (K : Type)
  | leaf (slots : List (Slot K))
  | internal (branches : List (Branch K))
  deriving DecidableEq

inductive Step (K : Type)
  | segment (slot : Slot K) (offset : Nat)
  | child (node : LocalId) (offset : Nat)

namespace SparseNode

variable {K : Type}

def total : SparseNode K → Nat
  | .leaf slots => (slots.map Slot.count).sum
  | .internal branches => (branches.map Branch.count).sum

def len : SparseNode K → Nat
  | .leaf slots => slots.length
  | .internal branches => branches.length

def firstKey : SparseNode K → Option K
  | .leaf slots => slots.head?.map Slot.first
  | .internal branches => branches.head?.map Branch.first

-- The two halves and the key to file the upper one under. The cut is at the ceiling, so
-- the half that keeps the id is never empty.
def splitOffHalf : SparseNode K → Option (K × SparseNode K × SparseNode K)
  | .leaf slots =>
    let upper := SparseNode.leaf (slots.drop ((slots.length + 1) / 2))
    upper.firstKey.map fun first => (first, .leaf (slots.take ((slots.length + 1) / 2)), upper)
  | .internal branches =>
    let upper := SparseNode.internal (branches.drop ((branches.length + 1) / 2))
    upper.firstKey.map fun first =>
      (first, .internal (branches.take ((branches.length + 1) / 2)), upper)

-- The entry whose cumulative count range contains `offset`, and the remainder.
def containing (offset seen : Nat) : List Nat → Option (Nat × Nat)
  | [] => none
  | count :: counts =>
    if offset < seen + count then some (0, offset - seen)
    else (containing offset (seen + count) counts).map fun r => (r.1 + 1, r.2)

def stepToOffset (offset : Nat) : SparseNode K → Option (Step K)
  | .leaf slots => do
      let (i, within) ← containing offset 0 (slots.map Slot.count)
      return .segment (← slots[i]?) within
  | .internal branches => do
      let (i, within) ← containing offset 0 (branches.map Branch.count)
      return .child (← branches[i]?).node within

variable [LinearOrder K]

def bisect (keys : List K) (target : K) (lo hi : Nat) : Nat :=
  if lo < hi then
    match keys[lo + (hi - lo) / 2]? with
    | some key =>
      if key ≤ target then bisect keys target (lo + (hi - lo) / 2 + 1) hi
      else bisect keys target lo (lo + (hi - lo) / 2)
    | none => lo
  else lo
termination_by hi - lo

-- The last index whose key is `<= key`, over an ascending sequence.
def lastAtOrBelow (keys : List K) (key : K) : Option Nat :=
  match bisect keys key 0 keys.length with
  | 0 => none
  | i + 1 => some i

def stepToKey (key : K) : SparseNode K → Option (Step K)
  | .leaf slots => do
      let i ← lastAtOrBelow (slots.map Slot.first) key
      return .segment (← slots[i]?) 0
  | .internal branches => do
      let i ← lastAtOrBelow (branches.map Branch.first) key
      return .child (← branches[i]?).node 0

end SparseNode

structure SparseTree where
  root : LocalId
  tenant : Nat
  laneHash : Nat
  cap : Nat
  deriving DecidableEq

structure SparseFrame (K : Type) where
  id : LocalId
  entries : List (Branch K)
  idx : Nat

namespace SparseTree

variable {V K : Type} [LaneCodec V (SparseNode K)]

def put (t : SparseTree) (id : LocalId) (node : SparseNode K) : Write V :=
  .put (id.toId t.tenant) (LaneCodec.toBytes t.laneHash node)

def load (t : SparseTree) (id : LocalId) : Engine V (SparseNode K) := do
  match ← Engine.getOf t.laneHash (id.toId t.tenant) with
  | none => .fail (.chainNodeMissing id)
  | some bytes => Prog.ofExcept (LaneCodec.fromBytes t.laneHash bytes)

def planCreate (tenant laneHash cap : Nat) : Engine V (SparseTree × Write V) := do
  let root ← mintLaneId laneHash
  let t : SparseTree := ⟨root, tenant, laneHash, cap⟩
  return (t, t.put root (SparseNode.leaf ([] : List (Slot K))))

def total (t : SparseTree) (K : Type) [LaneCodec V (SparseNode K)] : Engine V Nat := do
  let root : SparseNode K ← t.load t.root
  return root.total

def findOffsetFrom (t : SparseTree) : Nat → LocalId → Nat → Engine V (Option (Slot K × Nat))
  | 0, _, _ => .stuck
  | fuel + 1, id, offset => do
      match (← t.load id).stepToOffset offset with
      | none => return none
      | some (.segment slot within) => return some (slot, within)
      | some (.child node within) => t.findOffsetFrom fuel node within

-- The segment holding the global `offset`, and how far into it that is.
def findOffset (t : SparseTree) (fuel offset : Nat) : Engine V (Option (Slot K × Nat)) :=
  t.findOffsetFrom fuel t.root offset

def splitSibling (t : SparseTree) (node : SparseNode K) (writes : List (Write V)) :
    Engine V (SparseNode K × Option (Branch K) × List (Write V)) :=
  if node.len ≤ t.cap then return (node, none, writes)
  else
    match node.splitOffHalf with
    | none => return (node, none, writes)
    | some (first, lower, upper) => do
        let id ← mintLaneId t.laneHash
        return (lower, some ⟨first, id, upper.total⟩, writes ++ [t.put id upper])

def restoreRoot : SparseNode K → SparseNode K
  | .internal [] => .leaf []
  | node => node

-- Every ancestor is rewritten, with its counts. Only the root grows a level, and it
-- keeps its id.
def climb (t : SparseTree) : List (SparseFrame K) → LocalId → SparseNode K → List (Write V) →
    Engine V (List (Write V))
  | [], _, node, writes => do
      let (node, carry, writes) ← t.splitSibling node writes
      match carry with
      | none => return writes ++ [t.put t.root (restoreRoot node)]
      | some upper => do
          let lowerId ← mintLaneId t.laneHash
          let lower := node.firstKey.map fun first => (⟨first, lowerId, node.total⟩ : Branch K)
          return writes ++ [t.put lowerId node,
            t.put t.root (restoreRoot (.internal (lower.toList ++ [upper])))]
  | frame :: path, id, node, writes =>
    match node.firstKey with
    | none =>
      -- Covers nothing: drop the entry naming it and delete the value.
      t.climb path frame.id (.internal (frame.entries.eraseIdx frame.idx))
        (writes ++ [.remove t.laneHash (id.toId t.tenant)])
    | some first => do
        let (node, carry, writes) ← t.splitSibling node writes
        let entries := frame.entries.set frame.idx ⟨first, id, node.total⟩
        let writes := writes ++ [t.put id node]
        match carry with
        | none => t.climb path frame.id (.internal entries) writes
        | some branch =>
          t.climb path frame.id (.internal (entries.insertIdx (frame.idx + 1) branch)) writes

variable [LinearOrder K]

def findFrom (t : SparseTree) (key : K) : Nat → LocalId → Engine V (Option (Slot K))
  | 0, _ => .stuck
  | fuel + 1, id => do
      match (← t.load id).stepToKey key with
      | none => return none
      | some (.segment slot _) => return some slot
      | some (.child node _) => t.findFrom key fuel node

-- The segment covering `key`, or `none` when it sorts below every segment.
def find (t : SparseTree) (fuel : Nat) (key : K) : Engine V (Option (Slot K)) :=
  t.findFrom key fuel t.root

def branchFor (entries : List (Branch K)) (key : K) : Nat :=
  (entries.takeWhile fun b => b.first ≤ key).length - 1

-- Down to the leaf that owns `key`; the path is recorded innermost first.
def descend (t : SparseTree) (key : K) : Nat → LocalId → List (SparseFrame K) →
    Engine V (List (SparseFrame K) × LocalId × List (Slot K))
  | 0, _, _ => .stuck
  | fuel + 1, id, path => do
      match ← t.load id with
      | .leaf slots => return (path, id, slots)
      | .internal entries =>
        match entries[branchFor entries key]? with
        | none => .fail (.chainNodeMissing id)
        | some b => t.descend key fuel b.node (⟨id, entries, branchFor entries key⟩ :: path)

def upsertSlot (slots : List (Slot K)) (slot : Slot K) : List (Slot K) :=
  match binarySearch (slots.map Slot.first) slot.first with
  | .ok i => slots.set i slot
  | .error i => slots.insertIdx i slot

-- Files `slot` under its own least key, replacing any entry already there.
def planUpsert (t : SparseTree) (fuel : Nat) (slot : Slot K) : Engine V (List (Write V)) := do
  let (path, leafId, slots) ← t.descend slot.first fuel t.root []
  t.climb path leafId (.leaf (upsertSlot slots slot)) []

-- Drops the entry filed under `first`. An absent key writes nothing.
def planRemove (t : SparseTree) (fuel : Nat) (first : K) : Engine V (List (Write V)) := do
  let (path, leafId, slots) ← t.descend first fuel t.root []
  match binarySearch (slots.map Slot.first) first with
  | .error _ => return []
  | .ok i => t.climb path leafId (.leaf (slots.eraseIdx i)) []

section Asks

variable (t : SparseTree)

omit [LinearOrder K] in
theorem asks_load (id : LocalId) :
    (t.load id : Engine V (SparseNode K)).Asks (Op.ReadsIn t.tenant) := by
  refine Prog.Asks.bind (asks_getOf rfl) fun bytes => ?_
  cases bytes with
  | none => trivial
  | some bytes => exact Prog.asks_ofExcept _

omit [LinearOrder K] in
theorem asks_splitSibling (node : SparseNode K) (writes : List (Write V)) :
    (t.splitSibling node writes).Asks (Op.ReadsIn t.tenant) := by
  rw [splitSibling]
  split
  · trivial
  · split
    · trivial
    · exact (asks_mintLaneId _).bind fun _ => trivial

omit [LinearOrder K] in
theorem asks_climb (path : List (SparseFrame K)) (id : LocalId) (node : SparseNode K)
    (writes : List (Write V)) : (t.climb path id node writes).Asks (Op.ReadsIn t.tenant) := by
  induction path generalizing id node writes with
  | nil =>
    refine (t.asks_splitSibling node writes).bind fun ⟨_, carry, _⟩ => ?_
    cases carry with
    | none => trivial
    | some upper => exact (asks_mintLaneId _).bind fun _ => trivial
  | cons frame path ih =>
    rw [climb]
    cases node.firstKey with
    | none => exact ih _ _ _
    | some first =>
      refine (t.asks_splitSibling node writes).bind fun ⟨_, carry, _⟩ => ?_
      cases carry with
      | none => exact ih _ _ _
      | some branch => exact ih _ _ _

theorem asks_findFrom (key : K) (fuel : Nat) (id : LocalId) :
    (t.findFrom key fuel id : Engine V (Option (Slot K))).Asks (Op.ReadsIn t.tenant) := by
  induction fuel generalizing id with
  | zero => trivial
  | succ fuel ih =>
    refine (t.asks_load id).bind fun node => ?_
    cases node.stepToKey key with
    | none => trivial
    | some step =>
      cases step with
      | segment slot offset => trivial
      | child node offset => exact ih node

theorem asks_descend (key : K) (fuel : Nat) (id : LocalId) (path : List (SparseFrame K)) :
    (t.descend key fuel id path : Engine V _).Asks (Op.ReadsIn t.tenant) := by
  induction fuel generalizing id path with
  | zero => trivial
  | succ fuel ih =>
    refine (t.asks_load id).bind fun node => ?_
    cases node with
    | leaf slots => trivial
    | internal entries =>
      cases hget : entries[branchFor entries key]? with
      | none => simp only [hget]; trivial
      | some b => simp only [hget]; exact ih _ _

theorem asks_planUpsert (fuel : Nat) (slot : Slot K) :
    (t.planUpsert fuel slot : Engine V _).Asks (Op.ReadsIn t.tenant) :=
  (t.asks_descend _ _ _ _).bind fun _ => t.asks_climb _ _ _ _

theorem asks_planRemove (fuel : Nat) (first : K) :
    (t.planRemove fuel first : Engine V _).Asks (Op.ReadsIn t.tenant) := by
  refine (t.asks_descend _ _ _ _).bind fun ⟨path, leafId, slots⟩ => ?_
  cases hsearch : binarySearch (slots.map Slot.first) first with
  | error _ => simp only [hsearch]; trivial
  | ok i => simp only [hsearch]; exact t.asks_climb _ _ _ _

end Asks

end SparseTree

end WaveDb.Index
