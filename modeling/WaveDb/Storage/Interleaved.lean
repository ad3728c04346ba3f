import WaveDb.Storage.FailedRound
import WaveDb.Lib.Runs

-- One settle round among reads, applies and evictions, cut where a lock is
-- taken. A directory stands here for what its pages hold: the pages are
-- written afresh, so they stay what they are while the directory stands. Types
-- are registered ones: a read of another finds nothing, and a batch with one is
-- refused before any lock.
namespace WaveDb.Storage.Interleaved

open WaveDb.Lib WaveDb.Core

structure Slot where
  cache : Records
  dead : Finset Id
  pages : Id → Option Bytes

-- The working copy of a directory, with the tombstones to clear and those cleared.
structure Draft where
  contents : Id → Option Bytes
  cleared : List Id
  gone : List Id

-- `taken` is the round, and while it is published what is left of it. `todo`
-- is what has not been planned yet.
structure Round where
  taken : Touched
  todo : Touched
  draft : Nat → Option Draft
  publishing : Bool

-- An effective write with its route. `none` removes.
structure Routed where
  hash : Nat
  id : Id
  value : Option Bytes

-- An apply past its guards and its journal frame, under the journal lock. The
-- first of the writes in `todo` is in the cache when `half` is set.
structure Commit where
  batch : List Routed
  begun : List (Nat × Id)
  todo : List Routed
  half : Bool

-- How far a read has come. `expected` is what had been applied when it ended.
inductive Look
  | begun
  | missed
  | alive
  | done (found expected : Option Bytes)
  deriving DecidableEq

-- `overlapped` tells of an apply that touches the id and overlaps the read.
structure Reader where
  hash : Nat
  id : Id
  look : Look
  overlapped : Bool
  deriving DecidableEq

-- `last` is the last applied write of every id.
structure State where
  slots : Nat → Slot
  pending : Touched
  commit : Option Commit
  round : Option Round
  readers : Nat → Option Reader
  last : Nat → Id → Option Bytes

inductive Label
  | read (reader hash : Nat) (id : Id)
  | look (reader : Nat)
  | apply (batch : List (Write Bytes))
  | cacheWrite
  | deadWrite
  | queue
  | evict (hash target : Nat)
  | take (budget : Option Nat)
  | openSlot
  | planId
  | closeSlot
  | place
  | fail
  | clearRemoved
  | install
  | finish

def route : Write Bytes → Option Routed
  | .put id bytes =>
    match structHashOf bytes with
    | .ok hash => some ⟨hash, id, some bytes⟩
    | .error _ => none
  | .remove hash id => some ⟨hash, id, none⟩
  | .expect _ _ _ => none

def Routed.cacheWrite (w : Routed) (cache : Records) : Records :=
  match w.value with
  | some bytes => cache.put w.id bytes
  | none => cache.erase w.id

def Routed.deadWrite (w : Routed) (dead : Finset Id) : Finset Id :=
  match w.value with
  | some _ => dead.erase w.id
  | none => insert w.id dead

def Commit.touches (c : Commit) (hash : Nat) (id : Id) : Bool :=
  c.batch.any fun w => w.hash = hash ∧ w.id = id

namespace State

def setCache (s : State) (hash : Nat) (cache : Records) : State :=
  { s with slots := Function.update s.slots hash { s.slots hash with cache } }

def setDead (s : State) (hash : Nat) (dead : Finset Id) : State :=
  { s with slots := Function.update s.slots hash { s.slots hash with dead } }

def setPages (s : State) (hash : Nat) (pages : Id → Option Bytes) : State :=
  { s with slots := Function.update s.slots hash { s.slots hash with pages } }

def touched (s : State) (hash : Nat) (id : Id) : Bool := s.commit.any fun c => c.touches hash id

section Reads

def read (s : State) (reader hash : Nat) (id : Id) : Option State :=
  match s.readers reader with
  | some _ => none
  | none =>
    some { s with readers := Function.update s.readers reader (some ⟨hash, id, .begun, s.touched hash id⟩) }

-- `get_of`, one lock after the other: the cache, the tombstones, the directory
-- with its page.
def lookOn (s : State) (hash : Nat) (id : Id) : Look → Option Look
  | .begun =>
    match (s.slots hash).cache.get id with
    | some bytes => some (.done (some bytes) (s.last hash id))
    | none => some .missed
  | .missed => if id ∈ (s.slots hash).dead then some (.done none (s.last hash id)) else some .alive
  | .alive => some (.done ((s.slots hash).pages id) (s.last hash id))
  | .done _ _ => none

def look (s : State) (reader : Nat) : Option State := do
  let r ← s.readers reader
  let look ← s.lookOn r.hash r.id r.look
  return { s with readers := Function.update s.readers reader (some { r with look }) }

end Reads

section Applies

def Reader.overlap (c : Commit) (r : Reader) : Reader :=
  { r with overlapped := r.overlapped || c.touches r.hash r.id }

def apply (s : State) (batch : List (Write Bytes)) : Option State :=
  match s.commit with
  | some _ => none
  | none =>
    let routed := batch.filterMap route
    let c : Commit := ⟨routed, [], routed, false⟩
    some { s with
      commit := some c
      readers := fun i => (s.readers i).map (Reader.overlap c) }

def cacheWrite (s : State) : Option State := do
  let c ← s.commit
  match c.todo, c.half with
  | w :: _, false =>
    return { s.setCache w.hash (w.cacheWrite (s.slots w.hash).cache) with
      commit := some { c with begun := c.begun ++ [(w.hash, w.id)], half := true }
      last := Function.update s.last w.hash (Function.update (s.last w.hash) w.id w.value) }
  | _, _ => none

def deadWrite (s : State) : Option State := do
  let c ← s.commit
  match c.todo, c.half with
  | w :: todo, true =>
    return { s.setDead w.hash (w.deadWrite (s.slots w.hash).dead) with
      commit := some { c with todo, half := false } }
  | _, _ => none

def queue (s : State) : Option State := do
  let c ← s.commit
  match c.todo with
  | [] =>
    let touched := c.begun.foldl (fun touched key => noteTouched touched key.1 key.2) []
    return { s with commit := none, pending := mergeTouched s.pending touched }
  | _ => none

-- One type of an `evict_settled`, which keeps the journal and the queue locked.
def evict (s : State) (hash target : Nat) : Option State :=
  match s.commit, s.pending with
  | none, [] => some (s.setCache hash (evictUpTo target (s.slots hash).cache).2)
  | _, _ => none

end Applies

section Settle

def take (s : State) (budget : Option Nat) : Option State :=
  match s.round with
  | some _ => none
  | none =>
    let (round, left) := takeRound budget s.pending
    if round.isEmpty then none
    else some { s with pending := left, round := some ⟨round, round, fun _ => none, false⟩ }

def openSlot (s : State) : Option State := do
  let round ← s.round
  match round.publishing, round.todo with
  | false, (hash, _) :: _ =>
    match round.draft hash with
    | none =>
      let d : Draft := ⟨(s.slots hash).pages, [], []⟩
      return { s with round := some { round with draft := Function.update round.draft hash (some d) } }
    | some _ => none
  | _, _ => none

def planId (s : State) : Option State := do
  let round ← s.round
  match round.publishing, round.todo with
  | false, (hash, id :: ids) :: todo =>
    let d ← round.draft hash
    let found := (s.slots hash).cache.get id
    let d : Draft := { d with
      contents := Function.update d.contents id found
      cleared := if found.isSome then d.cleared else d.cleared ++ [id] }
    return { s with round := some { round with
      todo := (hash, ids) :: todo
      draft := Function.update round.draft hash (some d) } }
  | _, _ => none

def closeSlot (s : State) : Option State := do
  let round ← s.round
  match round.publishing, round.todo with
  | false, (hash, []) :: todo => do
      let _ ← round.draft hash
      return { s with round := some { round with todo } }
  | _, _ => none

def place (s : State) : Option State := do
  let round ← s.round
  match round.publishing, round.todo with
  | false, [] => return { s with round := some { round with publishing := true } }
  | _, _ => none

def fail (s : State) : Option State := do
  let round ← s.round
  if round.publishing then none
  else return { s with pending := requeue s.pending round.taken, round := none }

-- `publish` clears the tombstones of a slot before it swaps the directory.
def clearRemoved (s : State) : Option State := do
  let round ← s.round
  match round.publishing, round.taken with
  | true, (hash, _) :: _ => do
      let d ← round.draft hash
      match d.cleared with
      | id :: cleared =>
        let d : Draft := { d with cleared, gone := id :: d.gone }
        return { s.setDead hash ((s.slots hash).dead.erase id) with
          round := some { round with draft := Function.update round.draft hash (some d) } }
      | [] => none
  | _, _ => none

def install (s : State) : Option State := do
  let round ← s.round
  match round.publishing, round.taken with
  | true, (hash, _) :: taken => do
      let d ← round.draft hash
      match d.cleared with
      | [] =>
        return { s.setPages hash d.contents with
          round := some { round with taken, draft := Function.update round.draft hash none } }
      | _ => none
  | _, _ => none

def finish (s : State) : Option State := do
  let round ← s.round
  match round.publishing, round.taken with
  | true, [] => return { s with round := none }
  | _, _ => none

end Settle

def step (s : State) : Label → Option State
  | .read reader hash id => s.read reader hash id
  | .look reader => s.look reader
  | .apply batch => s.apply batch
  | .cacheWrite => s.cacheWrite
  | .deadWrite => s.deadWrite
  | .queue => s.queue
  | .evict hash target => s.evict hash target
  | .take budget => s.take budget
  | .openSlot => s.openSlot
  | .planId => s.planId
  | .closeSlot => s.closeSlot
  | .place => s.place
  | .fail => s.fail
  | .clearRemoved => s.clearRemoved
  | .install => s.install
  | .finish => s.finish

def exec (s : State) (labels : List Label) : Option State := labels.foldlM step s

def opened (pages : Nat → Id → Option Bytes) : State where
  slots hash := ⟨[], ∅, pages hash⟩
  pending := []
  commit := none
  round := none
  readers _ := none
  last := pages

end State

end WaveDb.Storage.Interleaved
