import WaveDb.Core.Record
import WaveDb.Lib.Keyed

-- A collection over the records of one type. Its two chains are kept as the
-- ascending lists of their keys.
namespace WaveDb.Collection

open WaveDb.Lib WaveDb.Core

-- What the engine knows of a record type. Only a keyed type has a natural key.
structure Kind (T : Type) where
  hash : Nat
  secondaries : Nat
  naturalKey : Option (T → Nat)

structure Handle where
  pivot : LocalId
  tenant : Nat
  user : Nat

structure Key where
  instant : Nat
  anchor : LocalId
  deriving DecidableEq, Repr

namespace Key

def asPair (k : Key) : Nat ×ₗ LocalId := toLex (k.instant, k.anchor)

theorem asPair_injective : Function.Injective asPair := by
  rintro ⟨i, a⟩ ⟨j, b⟩ h
  have h := congrArg ofLex h
  simp only [asPair, ofLex_toLex, Prod.mk.injEq] at h
  simp [h]

instance : LinearOrder Key := LinearOrder.lift' asPair asPair_injective

theorem instant_le_of_lt {k l : Key} (h : k < l) : k.instant ≤ l.instant := by
  rcases Prod.Lex.toLex_lt_toLex.mp h with hlt | heq
  · exact hlt.le
  · exact heq.1.le

end Key

def chainInsert (k : Key) (keys : List Key) : List Key := below id k keys ++ k :: above id k keys

def chainRemove (k : Key) (keys : List Key) : List Key := below id k keys ++ above id k keys

structure Chains where
  recency : List Key
  removals : List Key

-- The latest instant of either chain: each chain's tail segment ends in it.
def Chains.instantFloor (c : Chains) : Nat :=
  max ((c.recency.getLast?.map Key.instant).getD 0) ((c.removals.getLast?.map Key.instant).getD 0)

inductive Anchor (T : Type)
  | living (header : Metadata) (value : T)
  | dead
  | vacant

inductive Change (T : Type)
  | saved (id : Id) (header : Metadata) (value : T)
  | removed (id : Id) (instant : Nat)
  deriving DecidableEq

section Operations

variable {T : Type} (kind : Kind T) (handle : Handle)

def anchor (id : Id) : Engine (Stored T) (Anchor T) := do
  match ← Engine.getOf kind.hash id with
  | none => return .vacant
  | some (header, value) => return if header.isLive then .living header value else .dead

def keyedAnchor (value : T) : Option Id :=
  kind.naturalKey.map fun key => keyedId handle.tenant kind.hash (key value)

def savePlan (chains : Chains) (id : Id) (imposed : Option Metadata) (revives : Bool) :
    SavePlan where
  hash := kind.hash
  shape := .nonUnique
  liveId := id
  tenant := handle.tenant
  user := handle.user
  pivotId := some handle.pivot
  imposed := imposed
  floor := chains.instantFloor
  revives := revives

def insertWithMeta (chains : Chains) (id : Id) (header : Metadata) (value : T) :
    Engine (Stored T) (Chains × Change T) :=
  match header.succession with
  | .next _ => .fail (.chainCorrupt id)
  | .createdAt instant => do
      -- The batch has no guard: the id is taken to be vacant.
      Engine.apply [.put id (header, value)]
      return ({ chains with recency := chainInsert ⟨instant, .ofId id⟩ chains.recency },
        .saved id header value)

def insertAt (chains : Chains) (id : Id) (value : T) : Engine (Stored T) (Chains × Change T) :=
  insertWithMeta chains id
    { succession := .createdAt id.key, pivotId := some handle.pivot, user := handle.user } value

-- A save moves its record in the chain. A record that the chain does not hold
-- stays out of it.
def planChainMove (recency : List Key) (old : Key) (id : Id) (header : Metadata) :
    Engine (Stored T) (List Key) :=
  match header.succession with
  | .next _ => .fail (.chainCorrupt id)
  | .createdAt instant =>
    return if old ∈ recency then chainInsert ⟨instant, old.anchor⟩ (chainRemove old recency)
      else recency

-- What a save leaves of the chain. A first version under a caller's own id is
-- not indexed, so a type with secondaries refuses it.
def planReindex (recency : List Key) (old : Option (Nat × T)) (id : Id) (header : Metadata) :
    Engine (Stored T) (List Key) :=
  match old with
  | some (instant, _) => planChainMove recency ⟨instant, .ofId id⟩ id header
  | none => if 0 < kind.secondaries then .fail (.recordMissing id) else return recency

def savePlanned (chains : Chains) (id : Id) (value : T) (imposed : Option Metadata) :
    Engine (Stored T) (Chains × Change T) :=
  if (keyedAnchor kind handle value).any (· ≠ id) then .fail (.keyMismatch id)
  else do
    let (batch, old, header) ← planChainedSave (savePlan kind handle chains id imposed false) value
    let recency ← planReindex kind chains.recency old id header
    Engine.apply batch
    return ({ chains with recency }, .saved id header value)

def save (chains : Chains) (id : Id) (value : T) : Engine (Stored T) (Chains × Change T) :=
  savePlanned kind handle chains id value none

def chainIntoLiving (chains : Chains) (id : Id) (imposed : Option Metadata) (value : T) :
    Engine (Stored T) (Chains × Change T) := do
  let (batch, _, header) ← planChainedSave (savePlan kind handle chains id imposed true) value
  match header.succession with
  | .next _ => .fail (.chainCorrupt id)
  | .createdAt instant =>
    Engine.apply batch
    return ({ chains with recency := chainInsert ⟨instant, .ofId id⟩ chains.recency },
      .saved id header value)

def upsertKeyed (chains : Chains) (id : Id) (value : T) :
    Engine (Stored T) (Chains × Change T) := do
  match ← anchor kind id with
  | .living _ _ => savePlanned kind handle chains id value none
  | _ => chainIntoLiving kind handle chains id none value

def insert (chains : Chains) (value : T) : Engine (Stored T) (Chains × Change T) :=
  match keyedAnchor kind handle value with
  | some id => upsertKeyed kind handle chains id value
  | none => do
      let id ← mintFlooredId handle.tenant kind.hash chains.instantFloor
      insertAt handle chains id value

-- A vacant or dead anchor is not in the living set: nothing is removed.
def remove (chains : Chains) (id : Id) : Engine (Stored T) (Chains × Option (Change T)) := do
  match ← anchor kind id with
  | .living header value =>
    let removedAt ← Engine.mintInstant chains.instantFloor
    Engine.apply [.put id ({ header with removed := true }, value)]
    let recency := match header.succession with
      | .createdAt instant => chainRemove ⟨instant, .ofId id⟩ chains.recency
      | .next _ => chains.recency
    return (⟨recency, chainInsert ⟨removedAt, .ofId id⟩ chains.removals⟩,
      some (.removed id removedAt))
  | _ => return (chains, none)

end Operations

end WaveDb.Collection
