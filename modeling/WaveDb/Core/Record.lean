import WaveDb.Core.Mint

-- The version chain of a record: the live version at its anchor, each older one
-- at the slot derived from its instant.
namespace WaveDb.Core

open WaveDb.Lib

variable {T : Type}

abbrev Stored (T : Type) := Metadata × T

structure SavePlan where
  hash : Nat
  shape : Shape
  liveId : Id
  tenant : Nat
  user : Nat
  pivotId : Option LocalId
  -- Metadata of the node that a mirror writes as it is.
  imposed : Option Metadata
  floor : Nat
  revives : Bool

namespace SavePlan

def slot (plan : SavePlan) (instant : Nat) : Id :=
  archiveId plan.hash plan.shape instant plan.tenant

def firstMeta (plan : SavePlan) (instant : Nat) : Metadata :=
  { succession := .createdAt instant, pivotId := plan.pivotId, user := plan.user }

-- What a version authored here over an older one carries. A removal carries
-- forward unless this save is the one that brings the record back.
def nextMeta (plan : SavePlan) (old : Metadata) (authored instant : Nat) : Metadata where
  previous := some authored
  succession := .createdAt instant
  pivotId := old.pivotId
  user := plan.user
  deviceCreated := 0
  permission := old.permission
  removed := !plan.revives && old.removed

def author (plan : SavePlan) (floor : Nat) (header : Nat → Metadata) :
    Engine (Stored T) Metadata :=
  match plan.imposed with
  | some imposed => return imposed
  | none => do return header (← Engine.mintInstant floor)

end SavePlan

def planChainedSave (plan : SavePlan) (value : T) :
    Engine (Stored T) (List (Write (Stored T)) × Option (Nat × T) × Metadata) := do
  match ← Engine.getOf plan.hash plan.liveId with
  | none =>
    let header ← plan.author plan.floor plan.firstMeta
    return ([.expect plan.hash plan.liveId none, .put plan.liveId (header, value)], none, header)
  | some (oldMeta, oldValue) =>
    match oldMeta.succession with
    | .next _ => .fail (.chainCorrupt plan.liveId)
    | .createdAt authored =>
      let liveMeta ← plan.author (max authored plan.floor) (plan.nextMeta oldMeta authored)
      match liveMeta.succession with
      | .next _ => .fail (.chainCorrupt plan.liveId)
      | .createdAt instant =>
        -- A mirror whose copy does not precede the imposed instant archives nothing.
        let archive := if authored < instant then
            [.put (plan.slot authored) ({ oldMeta with succession := .next instant }, oldValue)]
          else []
        return (.expect plan.hash plan.liveId (some (oldMeta, oldValue)) ::
          archive ++ [.put plan.liveId (liveMeta, value)], some (authored, oldValue), liveMeta)

-- `history_stream`: the version at an id, then the ones its header leads to. A
-- missing version ends the stream with an error.
def historyFrom (hash : Nat) (shape : Shape) (tenant : Nat) :
    Nat → Id → Engine (Stored T) (List (Except Error (Stored T)))
  | 0, _ => .stuck
  | fuel + 1, id => do
      match ← Engine.getOf hash id with
      | none => return [.error (.recordMissing id)]
      | some (header, value) =>
        match header.previous with
        | none => return [.ok (header, value)]
        | some older =>
          let rest ← historyFrom hash shape tenant fuel (archiveId hash shape older tenant)
          return .ok (header, value) :: rest

section Plans

variable [DecidableEq T] {plan : SavePlan} {w : World (Stored T)}

theorem runIn_author_imposed {header : Metadata} (h : plan.imposed = some header) (floor : Nat)
    (f : Nat → Metadata) : (plan.author floor f).runIn w = (.ok header, w) := by
  simp only [SavePlan.author, h]
  rfl

theorem runIn_author_none (h : plan.imposed = none) (floor : Nat) (f : Nat → Metadata) :
    (plan.author floor f).runIn w = (.ok (f (w.minted floor)), w.mint floor) := by
  simp only [SavePlan.author, h]
  rfl

theorem runIn_planChainedSave_vacant (value : T) {w' : World (Stored T)} {header : Metadata}
    (hstore : w.store plan.liveId = none)
    (hauthor : (plan.author plan.floor plan.firstMeta).runIn w = (.ok header, w')) :
    (planChainedSave plan value).runIn w =
      (.ok ([.expect plan.hash plan.liveId none, .put plan.liveId (header, value)], none, header),
        w') := by
  rw [planChainedSave, Engine.runIn_bind_ok (Engine.runIn_getOf _ _ _), hstore]
  exact Engine.runIn_bind_ok hauthor

theorem runIn_planChainedSave_chained (value : T) {w' : World (Stored T)} {old header : Metadata}
    {oldValue : T} {authored instant : Nat}
    (hstore : w.store plan.liveId = some (old, oldValue))
    (hauthored : old.succession = .createdAt authored)
    (hauthor : (plan.author (max authored plan.floor) (plan.nextMeta old authored)).runIn w =
      (.ok header, w'))
    (hinstant : header.succession = .createdAt instant) :
    (planChainedSave plan value).runIn w =
      (.ok (.expect plan.hash plan.liveId (some (old, oldValue)) ::
        (if authored < instant then
          [.put (plan.slot authored) ({ old with succession := .next instant }, oldValue)]
          else []) ++ [.put plan.liveId (header, value)], some (authored, oldValue), header),
        w') := by
  rw [planChainedSave, Engine.runIn_bind_ok (Engine.runIn_getOf _ _ _), hstore]
  simp only [hauthored]
  rw [Engine.runIn_bind_ok hauthor]
  simp only [hinstant]
  rfl

theorem runIn_planChainedSave_archived (value : T) {old : Metadata} {oldValue : T} {successor : Nat}
    (hstore : w.store plan.liveId = some (old, oldValue))
    (hauthored : old.succession = .next successor) :
    (planChainedSave plan value).runIn w = (.error (.chainCorrupt plan.liveId), w) := by
  rw [planChainedSave, Engine.runIn_bind_ok (Engine.runIn_getOf _ _ _), hstore]
  simp only [hauthored]
  rfl

end Plans

end WaveDb.Core
