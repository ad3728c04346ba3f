import WaveDb.Collection.Basic
import WaveDb.Index.Chain.Links
import WaveDb.Node.Dispatch

-- The generated `Changes` step: a Unique walks its archive forward from the cursor, a
-- collection reads the tails of its two chains.
namespace WaveDb.Node

open WaveDb.Lib WaveDb.Core WaveDb.Index
open WaveDb.Collection (Key)

variable {V : Type}

-- The encodings of the step: its payload, what it reads from the store, the
-- entries of its answer and the errors as the node passes them on.
structure ChangesCodec (V : Type) where
  query : Bytes → Except Error (Option LocalId × Option Nat)
  pivotHash : Nat → Nat
  -- The record chain and the removal log that a pivot record roots.
  chains : (hash tenant : Nat) → V → Except Error (Chain × Chain)
  splitRecord : (hash : Nat) → V → Except Error (Metadata × Bytes)
  change : Change → Bytes
  refusal : Error → CoreError

namespace ChangesCodec

variable (c : ChangesCodec V)

def values (cursor : Nat) (changes : List Change) : Reply :=
  .values (c.change (.cursor cursor) :: changes.map c.change)

section Unique

-- The forward walk from `here`. The links it follows ascend, so `live - here`
-- steps see it to its end.
def walkForward (hash tenant cursor live : Nat) :
    Nat → Nat → List Change → Engine V (List Change)
  | 0, _, changes => return changes
  | steps + 1, here, changes =>
    if 0 < here ∧ here < live then do
      let slot := archiveId hash .unique here tenant
      match ← Engine.getOf hash slot with
      | none => return changes
      | some bytes => do
          let (info, body) ← Prog.ofExcept (c.splitRecord hash bytes)
          match info.succession with
          | .createdAt _ => .fail (.chainCorrupt slot)
          | .next next =>
            if next ≤ here then .fail (.chainCorrupt slot)
            else
              -- The caller has the version of the cursor itself.
              let missed := if cursor < here then
                  [.saved (uniqueAnchor tenant hash) { info with succession := .createdAt here } body]
                else []
              walkForward hash tenant cursor live steps next (changes ++ missed)
    else return changes

def uniqueChanges (hash tenant : Nat) (since : Option Nat) : Engine V Reply := do
  let anchor := uniqueAnchor tenant hash
  match ← Engine.getOf hash anchor with
  | none => return c.values (since.getD 0) []
  | some bytes => do
      let (info, body) ← Prog.ofExcept (c.splitRecord hash bytes)
      match info.succession, since with
      | .next _, _ => .fail (.chainCorrupt anchor)
      | .createdAt live, none => return c.values live []
      | .createdAt live, some cursor =>
        if live ≤ cursor then return c.values cursor []
        else do
          let changes ← c.walkForward hash tenant cursor live (live - cursor) cursor []
          return c.values live (changes ++ [.saved anchor info body])

end Unique

section Collection

variable [LaneCodec V (Segment Key Unit)]

-- The keys past the cursor, from the tail back to the first segment that
-- reaches it. Links that run in a circle are followed for ever.
def tailSince (chain : Chain) (cursor : Nat) : Nat → Option LocalId → List Key → Engine V (List Key)
  | 0, _, _ => .stuck
  | _ + 1, none, keys => return keys
  | fuel + 1, some id, keys => do
      let seg : Segment Key Unit ← chain.load id
      let reached := seg.firstKey.any (·.instant ≤ cursor)
      let past := (seg.entries.map Prod.fst).filter (cursor < ·.instant)
      tailSince chain cursor fuel (if reached then none else seg.prev) (keys ++ past)

-- The greatest instant of either chain: each keeps its own in the tail segment.
def instantFloor (recency removals : Chain) : Engine V Nat := do
  let seg : Segment Key Unit ← recency.load recency.tail
  let log : Segment Key Unit ← removals.load removals.tail
  return max ((seg.lastKey.map Key.instant).getD 0) ((log.lastKey.map Key.instant).getD 0)

def readSaved (hash tenant : Nat) : List Key → Engine V (List (Nat × Change))
  | [] => return []
  | key :: keys => do
      let id := key.anchor.toId tenant
      match ← Engine.getOf hash id with
      | none => .fail (.recordMissing id)
      | some bytes => do
          let (info, body) ← Prog.ofExcept (c.splitRecord hash bytes)
          let rest ← readSaved hash tenant keys
          return (key.instant, .saved id info body) :: rest

def timeline (changes : List (Nat × Change)) : List (Nat × Change) :=
  changes.mergeSort fun a b => a.1 ≤ b.1

def collectionChanges (fuel hash : Nat) (pivot : LocalId) (tenant : Nat) (since : Option Nat) :
    Engine V Reply := do
  match ← Engine.getOf (c.pivotHash hash) (pivot.toId tenant) with
  | none => .fail (.pivotMissing pivot)
  | some bytes => do
      let (recency, removals) ← Prog.ofExcept (c.chains hash tenant bytes)
      match since with
      | none => return c.values (← instantFloor recency removals) []
      | some cursor => do
          let saved ← tailSince recency cursor fuel (some recency.tail) []
          let removed ← tailSince removals cursor fuel (some removals.tail) []
          let saved ← c.readSaved hash tenant saved
          let changes := timeline (saved ++
            removed.map fun key => (key.instant, .removed (key.anchor.toId tenant) key.instant))
          let last := (changes.getLast?.map Prod.fst).getD cursor
          return c.values (max last cursor) (changes.map Prod.snd)

end Collection

section Step

variable [LaneCodec V (Segment Key Unit)] [DecidableEq V]

-- A Unique ignores the pivot of its payload. A collection has no topic without.
def changesProgram (fuel : Nat) (shape : Shape) (hash tenant : Nat) (pivot : Option LocalId) (since : Option Nat) :
    Engine V Reply :=
  match shape, pivot with
  | .unique, _ => c.uniqueChanges hash tenant since
  | .nonUnique, none => .fail (.unknownStructHash hash)
  | .nonUnique, some pivot => c.collectionChanges fuel hash pivot tenant since

-- A walk that does not end answers nothing. Here it is cut off with an error.
def answer : Outcome Error Reply → Except CoreError Reply
  | .ok reply => .ok reply
  | .error e => .error (c.refusal e)
  | .stuck => .error (.backend "the walk does not end")

def changesStep (fuel : Nat) (shape : Shape) (hash : Nat) : Step (World V) := fun world caller payload =>
  match c.query payload with
  | .error e => (.error (c.refusal e), world)
  | .ok (pivot, since) =>
    let outcome := (c.changesProgram fuel shape hash caller.tenant pivot since).runIn world
    (c.answer outcome.1, outcome.2)

end Step

section Reads

theorem reads_getOf (hash : Nat) (id : Id) : (Engine.getOf hash id : Engine V (Option V)).Asks Op.IsRead :=
  Prog.asks_perform trivial

theorem reads_walkForward (hash tenant cursor live steps here : Nat) (changes : List Change) :
    (c.walkForward hash tenant cursor live steps here changes).Asks Op.IsRead := by
  induction steps generalizing here changes with
  | zero => trivial
  | succ steps ih =>
    rw [walkForward]
    split
    · refine (reads_getOf hash _).bind fun found => ?_
      cases found with
      | none => trivial
      | some bytes =>
        refine (Prog.asks_ofExcept _).bind fun record => ?_
        obtain ⟨info, body⟩ := record
        cases hs : info.succession with
        | createdAt instant => simp only [hs]; trivial
        | next next =>
          simp only [hs]
          split
          · trivial
          · exact ih next _
    · trivial

theorem reads_uniqueChanges (hash tenant : Nat) (since : Option Nat) :
    (c.uniqueChanges hash tenant since).Asks Op.IsRead := by
  refine (reads_getOf hash _).bind fun found => ?_
  cases found with
  | none => trivial
  | some bytes =>
    refine (Prog.asks_ofExcept _).bind fun record => ?_
    obtain ⟨info, body⟩ := record
    cases hs : info.succession with
    | next next => simp only [hs]; trivial
    | createdAt live =>
      cases since with
      | none => simp only [hs]; trivial
      | some cursor =>
        simp only [hs]
        split
        · trivial
        · exact (c.reads_walkForward ..).bind fun changes => trivial

variable [LaneCodec V (Segment Key Unit)]

theorem reads_load (chain : Chain) (id : LocalId) :
    (chain.load id : Engine V (Segment Key Unit)).Asks Op.IsRead := by
  refine (reads_getOf _ _).bind fun found => ?_
  cases found with
  | none => trivial
  | some bytes => exact Prog.asks_ofExcept _

theorem reads_tailSince (chain : Chain) (cursor fuel : Nat) (place : Option LocalId) (keys : List Key) :
    (tailSince chain cursor fuel place keys : Engine V (List Key)).Asks Op.IsRead := by
  induction fuel generalizing place keys with
  | zero => trivial
  | succ fuel ih =>
    cases place with
    | none => trivial
    | some id => exact (reads_load chain id).bind fun seg => ih _ _

omit [LaneCodec V (Segment Key Unit)] in
theorem reads_readSaved (hash tenant : Nat) (keys : List Key) :
    (c.readSaved hash tenant keys).Asks Op.IsRead := by
  induction keys with
  | nil => trivial
  | cons key keys ih =>
    refine (reads_getOf hash _).bind fun found => ?_
    cases found with
    | none => trivial
    | some bytes =>
      exact (Prog.asks_ofExcept _).bind fun record => ih.bind fun rest => trivial

theorem reads_collectionChanges (fuel hash : Nat) (pivot : LocalId) (tenant : Nat) (since : Option Nat) :
    (c.collectionChanges fuel hash pivot tenant since).Asks Op.IsRead := by
  refine (reads_getOf _ _).bind fun found => ?_
  cases found with
  | none => trivial
  | some bytes =>
    refine (Prog.asks_ofExcept _).bind fun chains => ?_
    cases since with
    | none =>
      refine Prog.Asks.bind ?_ fun floor => trivial
      exact (reads_load _ _).bind fun seg => (reads_load _ _).bind fun log => trivial
    | some cursor =>
      refine (reads_tailSince _ _ _ _ _).bind fun saved => ?_
      refine (reads_tailSince _ _ _ _ _).bind fun removed => ?_
      exact (c.reads_readSaved hash tenant saved).bind fun saved => trivial

theorem reads_changesProgram (fuel : Nat) (shape : Shape) (hash tenant : Nat) (pivot : Option LocalId)
    (since : Option Nat) : (c.changesProgram fuel shape hash tenant pivot since).Asks Op.IsRead := by
  cases shape with
  | unique => exact c.reads_uniqueChanges hash tenant since
  | nonUnique =>
    cases pivot with
    | none => trivial
    | some pivot => exact c.reads_collectionChanges fuel hash pivot tenant since

theorem changesStep_world [DecidableEq V] (fuel : Nat) (shape : Shape) (hash : Nat) (world : World V)
    (caller : Caller) (payload : Bytes) : (c.changesStep fuel shape hash world caller payload).2 = world := by
  rw [changesStep]
  cases c.query payload with
  | error e => rfl
  | ok query => exact Engine.runIn_reads (c.reads_changesProgram ..) world

end Reads

end ChangesCodec

end WaveDb.Node
