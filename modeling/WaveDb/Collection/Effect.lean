import WaveDb.Collection.Basic

-- What a write of a collection does to the records and the chains.
namespace WaveDb.Collection

open WaveDb.Lib WaveDb.Core

variable {T : Type}

inductive Request (T : Type)
  | insert (value : T)
  | save (id : Id) (value : T)
  | remove (id : Id)

def perform (kind : Kind T) (handle : Handle) (chains : Chains) :
    Request T → Engine (Stored T) (Chains × Option (Change T))
  | .insert value => do
      let (chains, change) ← insert kind handle chains value
      return (chains, some change)
  | .save id value => do
      let (chains, change) ← save kind handle chains id value
      return (chains, some change)
  | .remove id => remove kind chains id

structure Site (T : Type) where
  store : Store (Stored T)
  chains : Chains

def Handle.firstMeta (handle : Handle) (instant : Nat) : Metadata :=
  { succession := .createdAt instant, pivotId := some handle.pivot, user := handle.user }

def Handle.nextMeta (handle : Handle) (revives : Bool) (old : Metadata) (authored instant : Nat) :
    Metadata where
  previous := some authored
  succession := .createdAt instant
  pivotId := old.pivotId
  user := handle.user
  deviceCreated := 0
  permission := old.permission
  removed := !revives && old.removed

def Kind.slot (kind : Kind T) (handle : Handle) (instant : Nat) : Id :=
  archiveId kind.hash .nonUnique instant handle.tenant

namespace Site

def first (s : Site T) (handle : Handle) (id : Id) (instant : Nat) (value : T) : Store (Stored T) :=
  Function.update s.store id (some (handle.firstMeta instant, value))

def next (s : Site T) (slot id : Id) (old : Stored T) (instant : Nat) (header : Metadata)
    (value : T) : Store (Stored T) :=
  Function.update (Function.update s.store slot
    (some ({ old.1 with succession := .next instant }, old.2))) id (some (header, value))

def replaced (s : Site T) (slot id : Id) (old : Stored T) (authored instant : Nat)
    (header : Metadata) (value : T) : Store (Stored T) :=
  if authored < instant then s.next slot id old instant header value
  else Function.update s.store id (some (header, value))

def entered (s : Site T) (id : Id) (instant : Nat) : Chains :=
  { s.chains with recency := chainInsert ⟨instant, .ofId id⟩ s.chains.recency }

def moved (s : Site T) (id : Id) (authored instant : Nat) : Chains :=
  if ⟨authored, .ofId id⟩ ∈ s.chains.recency then
    ⟨chainInsert ⟨instant, .ofId id⟩ (chainRemove ⟨authored, .ofId id⟩ s.chains.recency),
      s.chains.removals⟩
  else s.chains

def left (s : Site T) (id : Id) (authored instant : Nat) : Chains :=
  ⟨chainRemove ⟨authored, .ofId id⟩ s.chains.recency,
    chainInsert ⟨instant, .ofId id⟩ s.chains.removals⟩

def logged (s : Site T) (id : Id) (instant : Nat) : Chains :=
  { s.chains with removals := chainInsert ⟨instant, .ofId id⟩ s.chains.removals }

end Site

inductive Effect (kind : Kind T) (handle : Handle) (s : Site T) (instant : Nat) :
    Request T → Change T → Site T → Prop
  | insert {value : T} {id : Id} (hkind : kind.naturalKey = none)
      (hid : id = Id.new instant handle.tenant false (typeSalt kind.hash)) :
      Effect kind handle s instant (.insert value) (.saved id (handle.firstMeta instant) value)
        ⟨s.first handle id instant value, s.entered id instant⟩
  -- A keyed record that was never there.
  | enter {value : T} {id : Id} (hid : keyedAnchor kind handle value = some id)
      (hvacant : s.store id = none) :
      Effect kind handle s instant (.insert value) (.saved id (handle.firstMeta instant) value)
        ⟨s.first handle id instant value, s.entered id instant⟩
  -- A save under an id that was never there is not indexed.
  | first {value : T} {id : Id} (hid : ∀ a ∈ keyedAnchor kind handle value, a = id)
      (hvacant : s.store id = none) (hkind : kind.secondaries = 0) :
      Effect kind handle s instant (.save id value) (.saved id (handle.firstMeta instant) value)
        ⟨s.first handle id instant value, s.chains⟩
  | next {request : Request T} {value oldValue : T} {id : Id} {old : Metadata} {authored : Nat}
      (hid : ∀ a ∈ keyedAnchor kind handle value, a = id)
      (hrequest : request = .save id value ∨ request = .insert value ∧
        keyedAnchor kind handle value = some id ∧ old.removed = false)
      (hold : s.store id = some (old, oldValue)) (hauthored : old.succession = .createdAt authored)
      (hlt : authored < instant) :
      Effect kind handle s instant request
        (.saved id (handle.nextMeta false old authored instant) value)
        ⟨s.next (kind.slot handle authored) id (old, oldValue) instant
          (handle.nextMeta false old authored instant) value, s.moved id authored instant⟩
  -- A keyed record that was removed.
  | revive {value oldValue : T} {id : Id} {old : Metadata} {authored : Nat}
      (hid : keyedAnchor kind handle value = some id)
      (hold : s.store id = some (old, oldValue)) (hauthored : old.succession = .createdAt authored)
      (hdead : old.removed = true) (hlt : authored < instant) :
      Effect kind handle s instant (.insert value)
        (.saved id (handle.nextMeta true old authored instant) value)
        ⟨s.next (kind.slot handle authored) id (old, oldValue) instant
          (handle.nextMeta true old authored instant) value, s.entered id instant⟩
  | remove {id : Id} {header : Metadata} {value : T} {authored : Nat}
      (hold : s.store id = some (header, value)) (hlive : header.removed = false)
      (hauthored : header.succession = .createdAt authored) :
      Effect kind handle s instant (.remove id) (.removed id instant)
        ⟨Function.update s.store id (some ({ header with removed := true }, value)),
          s.left id authored instant⟩
  -- An archived version reads as living under its own id.
  | removeArchived {id : Id} {header : Metadata} {value : T} {successor : Nat}
      (hold : s.store id = some (header, value)) (hlive : header.removed = false)
      (hauthored : header.succession = .next successor) :
      Effect kind handle s instant (.remove id) (.removed id instant)
        ⟨Function.update s.store id (some ({ header with removed := true }, value)),
          s.logged id instant⟩

end WaveDb.Collection
