import WaveDb.Core.Store
import Mathlib

namespace WaveDb.Index

open WaveDb.Lib WaveDb.Core

inductive NodeBody (K : Type)
  | leaf (keys : List K)
  | internal (leftmost : LocalId) (entries : List (K × LocalId))
  deriving DecidableEq

-- "BPTREE\0\x01", the tag every node value starts with.
def bptreeNodeStructHash : Nat := 0x4250545245450001

-- How nodes are stored. Decoding gives back what was encoded.
class NodeCodec (V K : Type) where
  toBytes : NodeBody K → V
  fromBytes : V → Except Error (NodeBody K)
  fromBytes_toBytes : ∀ node, fromBytes (toBytes node) = .ok node

structure BpTree where
  root : LocalId
  tenant : Nat
  leafCap : Nat
  internalCap : Nat
  deriving DecidableEq

-- One internal node on a descent path. `childIdx` is the slot the descent
-- took, with `0` for `leftmost` and `i + 1` for `entries[i]`.
structure PathFrame (K : Type) where
  nodeId : LocalId
  leftmost : LocalId
  entries : List (K × LocalId)
  childIdx : Nat

section Search

variable {K : Type} [LinearOrder K]

-- The std search on a sorted slice: where the target is or would be inserted.
def binarySearch (keys : List K) (target : K) : Except Nat Nat :=
  let pos := (keys.takeWhile (· < target)).length
  if keys[pos]? = some target then .ok pos else .error pos

-- Child `c` is `leftmost` for `0` and `entries[c - 1]` otherwise.
def childId (leftmost : LocalId) (entries : List (K × LocalId)) : Nat → LocalId
  | 0 => leftmost
  | c + 1 => (entries.map Prod.snd).getD c leftmost

-- Last separator `<= target`; if none, the leftmost child.
def childAndIndex (leftmost : LocalId) (entries : List (K × LocalId)) (target : K) :
    LocalId × Nat :=
  match binarySearch (entries.map Prod.fst) target with
  | .ok i => (childId leftmost entries (i + 1), i + 1)
  | .error i => (childId leftmost entries i, i)

end Search

def mintNodeId {V : Type} : Engine V LocalId := do
  let key ← Engine.keyNanos
  return LocalId.new key true (typeSalt bptreeNodeStructHash)

namespace BpTree

variable {V K : Type} [NodeCodec V K]

def load (t : BpTree) (node : LocalId) : Engine V (NodeBody K) := do
  match ← Engine.getOf bptreeNodeStructHash (node.toId t.tenant) with
  | none => .fail (.bpTreeNodeMissing node)
  | some bytes => Prog.ofExcept (NodeCodec.fromBytes bytes)

def put (t : BpTree) (node : LocalId) (body : NodeBody K) : Write V :=
  .put (node.toId t.tenant) (NodeCodec.toBytes body)

def removeNode (t : BpTree) (node : LocalId) : Write V :=
  .remove bptreeNodeStructHash (node.toId t.tenant)

def planCreate (tenant leafCap internalCap : Nat) : Engine V (BpTree × Write V) := do
  let root ← mintNodeId
  let t : BpTree := ⟨root, tenant, leafCap, internalCap⟩
  return (t, t.put root (NodeBody.leaf ([] : List K)))

variable [LinearOrder K]

-- The leaf's keys and id, and the internal nodes above it, innermost first.
def descend (t : BpTree) (target : K) : Nat → LocalId → List (PathFrame K) →
    Engine V (List K × LocalId × List (PathFrame K))
  | 0, _, _ => .stuck
  | fuel + 1, nodeId, path => do
      match ← t.load nodeId with
      | .leaf keys => return (keys, nodeId, path)
      | .internal leftmost entries =>
        let (next, childIdx) := childAndIndex leftmost entries target
        t.descend target fuel next (⟨nodeId, leftmost, entries, childIdx⟩ :: path)

def containsFrom (t : BpTree) (target : K) : Nat → LocalId → Engine V Bool
  | 0, _ => .stuck
  | fuel + 1, node => do
      match ← t.load node with
      | .leaf keys => return (binarySearch keys target).isOk
      | .internal leftmost entries =>
        t.containsFrom target fuel (childAndIndex leftmost entries target).1

def contains (t : BpTree) (fuel : Nat) (target : K) : Engine V Bool :=
  t.containsFrom target fuel t.root

-- Propagates `(sep, right)` up the recorded path, splitting as needed.
def splitUp (t : BpTree) : List (PathFrame K) → LocalId → K → LocalId → List (Write V) →
    Engine V (BpTree × List (Write V))
  | [], nodeId, sep, right, batch => do
      -- Above the old root, whose left half kept the id `nodeId`.
      let newRoot ← mintNodeId
      return ({ t with root := newRoot },
        batch ++ [t.put newRoot (.internal nodeId [(sep, right)])])
  | ⟨parentId, leftmost, entries, childIdx⟩ :: path, _, sep, right, batch =>
    let entries := entries.insertIdx childIdx (sep, right)
    if entries.length ≤ t.internalCap then
      return (t, batch ++ [t.put parentId (.internal leftmost entries)])
    else
      match entries.drop (entries.length / 2) with
      | [] => .stuck -- an index panic; the median of a nonempty list exists
      | (promoteSep, promoteChild) :: rightEntries => do
          let rightInternal ← mintNodeId
          t.splitUp path parentId promoteSep rightInternal
            (batch ++ [t.put parentId (.internal leftmost (entries.take (entries.length / 2))),
              t.put rightInternal (.internal promoteChild rightEntries)])

def planInsert (t : BpTree) (fuel : Nat) (target : K) : Engine V (BpTree × List (Write V)) := do
  let (keys, nodeId, path) ← t.descend target fuel t.root []
  match binarySearch keys target with
  | .ok _ => return (t, [])
  | .error pos =>
    let keys := keys.insertIdx pos target
    if keys.length ≤ t.leafCap then return (t, [t.put nodeId (.leaf keys)])
    else
      match keys.drop (keys.length / 2) with
      | [] => .stuck
      | sep :: rightRest => do
          let rightId ← mintNodeId
          t.splitUp path nodeId sep rightId
            [t.put nodeId (.leaf (keys.take (keys.length / 2))),
              t.put rightId (.leaf (sep :: rightRest))]

def isUnderfull (t : BpTree) : NodeBody K → Bool
  | .leaf keys => keys.length < t.leafCap / 4
  | .internal _ entries => entries.length < t.internalCap / 4

def merge (t : BpTree) (sep : K) : NodeBody K → NodeBody K → Option (NodeBody K)
  | .leaf l, .leaf r =>
    if l.length + r.length ≤ t.leafCap * 3 / 4 then some (.leaf (l ++ r)) else none
  | .internal lLm lE, .internal rLm rE =>
    if lE.length + rE.length + 1 ≤ t.internalCap * 3 / 4 then
      some (.internal lLm (lE ++ (sep, rLm) :: rE))
    else none
  | _, _ => none

end BpTree

def redistribute {K : Type} (sep : K) : NodeBody K → NodeBody K → NodeBody K × NodeBody K × K
  | .leaf l, .leaf r =>
    let combined := l ++ r
    let rightKeys := combined.drop (combined.length / 2)
    (.leaf (combined.take (combined.length / 2)), .leaf rightKeys, rightKeys.headD sep)
  | .internal lLm lE, .internal rLm rE =>
    let combined := lE ++ (sep, rLm) :: rE
    let mid := combined.length / 2
    match combined.drop mid with
    | [] => (.internal lLm lE, .internal rLm rE, sep)
    | (newSep, newRLeftmost) :: rightEntries =>
      (.internal lLm (combined.take mid), .internal newRLeftmost rightEntries, newSep)
  | l, r => (l, r, sep)

inductive Rebalanced (K : Type)
  | parentPending (id : LocalId) (node : NodeBody K)
  | done

namespace BpTree

variable {V K : Type} [NodeCodec V K] [LinearOrder K]

def finishAtRoot (t : BpTree) (batch : List (Write V)) (rootId : LocalId) :
    NodeBody K → BpTree × List (Write V)
  | .internal leftmost [] => ({ t with root := leftmost }, batch ++ [t.removeNode rootId])
  | root => (t, batch ++ [t.put rootId root])

-- `current` with the sibling it pairs with, the leftmost child with its right one.
def loadPair (t : BpTree) (current : NodeBody K) (isLeft : Bool) (leftId rightId : LocalId) :
    Engine V (NodeBody K × NodeBody K) :=
  if isLeft then do return (current, ← t.load rightId)
  else do return (← t.load leftId, current)

-- Merges or redistributes the underfull `current` with a sibling.
def rebalance (t : BpTree) (nodeId : LocalId) (current : NodeBody K) :
    PathFrame K → Engine V (List (Write V) × Rebalanced K)
  | ⟨parentId, leftmost, entries, childIdx⟩ =>
    if entries.isEmpty then
      return ([t.put nodeId current], .parentPending parentId (.internal leftmost entries))
    else do
      let leftIdx := childIdx - 1
      let leftId := childId leftmost entries leftIdx
      let rightId := childId leftmost entries (leftIdx + 1)
      let (left, right) ← t.loadPair current (childIdx == leftIdx) leftId rightId
      match entries[leftIdx]? with
      | none => .stuck -- an index panic; the slot taken exists
      | some (sep, _) =>
        match t.merge sep left right with
        | some merged =>
          return ([t.put leftId merged, t.removeNode rightId],
            .parentPending parentId (.internal leftmost (entries.eraseIdx leftIdx)))
        | none =>
          let (newLeft, newRight, newSep) := redistribute sep left right
          return ([t.put leftId newLeft, t.put rightId newRight, t.put parentId
            (.internal leftmost (entries.modify leftIdx fun e => (newSep, e.2)))], .done)

def removeUp (t : BpTree) : List (PathFrame K) → LocalId → NodeBody K → List (Write V) →
    Engine V (BpTree × List (Write V))
  | [], nodeId, current, batch => return t.finishAtRoot batch nodeId current
  | frame :: path, nodeId, current, batch =>
    if t.isUnderfull current then do
      let (ws, outcome) ← t.rebalance nodeId current frame
      match outcome with
      | .parentPending id node => t.removeUp path id node (batch ++ ws)
      | .done => return (t, batch ++ ws)
    else return (t, batch ++ [t.put nodeId current])

-- `none` means that the key was not present.
def planRemove (t : BpTree) (fuel : Nat) (target : K) :
    Engine V (BpTree × Option (List (Write V))) := do
  let (keys, nodeId, path) ← t.descend target fuel t.root []
  match binarySearch keys target with
  | .error _ => return (t, none)
  | .ok pos => do
      let (t, batch) ← t.removeUp path nodeId (.leaf (keys.eraseIdx pos)) []
      return (t, some batch)

end BpTree

end WaveDb.Index
