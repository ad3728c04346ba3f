import WaveDb.Collection.Perform

-- A collection with everything its type declares. Each index is kept as the ascending
-- list of its entries.
namespace WaveDb.Collection

open WaveDb.Lib WaveDb.Core

-- A key of a declared structure, ordered by field. The anchor breaks ties.
structure SecKey (F : Type) where
  field : F
  anchor : LocalId

namespace SecKey

variable {F : Type}

def asPair (k : SecKey F) : F ×ₗ LocalId := toLex (k.field, k.anchor)

theorem asPair_injective : Function.Injective (asPair : SecKey F → F ×ₗ LocalId) := by
  rintro ⟨f, a⟩ ⟨g, b⟩ h
  have h := congrArg ofLex h
  simp only [asPair, ofLex_toLex, Prod.mk.injEq] at h
  simp [h]

instance [LinearOrder F] : LinearOrder (SecKey F) := LinearOrder.lift' asPair asPair_injective

end SecKey

-- What a record type declares. A value has one field in a list or a secondary
-- index, and in a fuzzy index one for each gram of its text.
structure Declaration (T F : Type) where
  hash : Nat
  naturalKey : Option (T → Nat)
  numLists : Nat
  listField : Fin numLists → T → F
  numSecondaries : Nat
  secondaryField : Fin numSecondaries → T → F
  numFuzzy : Nat
  fuzzyFields : Fin numFuzzy → T → List F

variable {T F : Type} {d : Declaration T F}

def Declaration.kind (d : Declaration T F) : Kind T := ⟨d.hash, d.numSecondaries, d.naturalKey⟩

structure Catalog (d : Declaration T F) where
  chains : Chains
  lists : Fin d.numLists → List (SecKey F × Stored T)
  secondaries : Fin d.numSecondaries → List (SecKey F)
  fuzzy : Fin d.numFuzzy → List (SecKey F)

namespace Catalog

def empty (d : Declaration T F) : Catalog d := ⟨⟨[], []⟩, fun _ => [], fun _ => [], fun _ => []⟩

def listKey (i : Fin d.numLists) (value : T) (anchor : LocalId) : SecKey F := ⟨d.listField i value, anchor⟩

def secKey (i : Fin d.numSecondaries) (value : T) (anchor : LocalId) : SecKey F :=
  ⟨d.secondaryField i value, anchor⟩

def fuzzyKeys (i : Fin d.numFuzzy) (value : T) (anchor : LocalId) : List (SecKey F) :=
  (d.fuzzyFields i value).map fun field => ⟨field, anchor⟩

variable [LinearOrder F]

def putKeys (keys tree : List (SecKey F)) : List (SecKey F) := keys.foldl (fun tree key => putKey id key tree) tree

def dropKeys (keys tree : List (SecKey F)) : List (SecKey F) := keys.foldl (fun tree key => dropKey id key tree) tree

variable (cat : Catalog d)

section Moves

variable (anchor : LocalId)

def enter (instant : Nat) (record : Stored T) : Catalog d where
  chains := { cat.chains with recency := chainInsert ⟨instant, anchor⟩ cat.chains.recency }
  lists i := putKey Prod.fst (listKey i record.2 anchor, record) (cat.lists i)
  secondaries i := putKey id (secKey i record.2 anchor) (cat.secondaries i)
  fuzzy i := putKeys (fuzzyKeys i record.2 anchor) (cat.fuzzy i)

-- The record is rewritten in every list. Where its field stays it keeps its place.
def planListMoves (record : Stored T) (oldValue : T) (i : Fin d.numLists) : List (SecKey F × Stored T) :=
  putKey Prod.fst (listKey i record.2 anchor, record)
    (if listKey i oldValue anchor ≠ listKey i record.2 anchor then
      dropKey Prod.fst (listKey i oldValue anchor) (cat.lists i)
    else cat.lists i)

def planSecondaryRekeys (value oldValue : T) (i : Fin d.numSecondaries) : List (SecKey F) :=
  if secKey i oldValue anchor = secKey i value anchor then cat.secondaries i
  else putKey id (secKey i value anchor) (dropKey id (secKey i oldValue anchor) (cat.secondaries i))

def planFuzzyMoves (value oldValue : T) (i : Fin d.numFuzzy) : List (SecKey F) :=
  if fuzzyKeys i oldValue anchor = fuzzyKeys i value anchor then cat.fuzzy i
  else putKeys ((fuzzyKeys i value anchor).filter (· ∉ fuzzyKeys i oldValue anchor))
    (dropKeys ((fuzzyKeys i oldValue anchor).filter (· ∉ fuzzyKeys i value anchor)) (cat.fuzzy i))

-- Only a record that the recency chain holds is moved in the lists; the indexes are
-- moved in any case.
def move (authored instant : Nat) (record : Stored T) (oldValue : T) : Catalog d where
  chains := if ⟨authored, anchor⟩ ∈ cat.chains.recency then
      { cat.chains with
        recency := chainInsert ⟨instant, anchor⟩ (chainRemove ⟨authored, anchor⟩ cat.chains.recency) }
    else cat.chains
  lists i := if ⟨authored, anchor⟩ ∈ cat.chains.recency then cat.planListMoves anchor record oldValue i
    else cat.lists i
  secondaries := cat.planSecondaryRekeys anchor record.2 oldValue
  fuzzy := cat.planFuzzyMoves anchor record.2 oldValue

def leave (succession : Succession) (removedAt : Nat) (value : T) : Catalog d where
  chains := ⟨match succession with
      | .createdAt instant => chainRemove ⟨instant, anchor⟩ cat.chains.recency
      | .next _ => cat.chains.recency,
    chainInsert ⟨removedAt, anchor⟩ cat.chains.removals⟩
  lists i := dropKey Prod.fst (listKey i value anchor) (cat.lists i)
  secondaries i := dropKey id (secKey i value anchor) (cat.secondaries i)
  fuzzy i := dropKeys (fuzzyKeys i value anchor) (cat.fuzzy i)

end Moves

section Operations

variable (handle : Handle)

def insertWithMeta (id : Id) (header : Metadata) (value : T) : Engine (Stored T) (Catalog d × Change T) :=
  match header.succession with
  | .next _ => .fail (.chainCorrupt id)
  | .createdAt instant => do
      -- The batch has no guard: the id is taken to be vacant.
      Engine.apply [.put id (header, value)]
      return (cat.enter (.ofId id) instant (header, value), .saved id header value)

def insertAt (id : Id) (value : T) : Engine (Stored T) (Catalog d × Change T) :=
  cat.insertWithMeta id
    { succession := .createdAt id.key, pivotId := some handle.pivot, user := handle.user } value

def planReindex (old : Option (Nat × T)) (id : Id) (header : Metadata) (value : T) :
    Engine (Stored T) (Catalog d) :=
  match old with
  | some (authored, oldValue) =>
    match header.succession with
    | .next _ => .fail (.chainCorrupt id)
    | .createdAt instant => return cat.move (.ofId id) authored instant (header, value) oldValue
  | none => if 0 < d.numSecondaries then .fail (.recordMissing id) else return cat

def savePlanned (id : Id) (value : T) (imposed : Option Metadata) :
    Engine (Stored T) (Catalog d × Change T) :=
  if (keyedAnchor d.kind handle value).any (· ≠ id) then .fail (.keyMismatch id)
  else do
    let (batch, old, header) ← planChainedSave (savePlan d.kind handle cat.chains id imposed false) value
    let moved ← cat.planReindex old id header value
    Engine.apply batch
    return (moved, .saved id header value)

def save (id : Id) (value : T) : Engine (Stored T) (Catalog d × Change T) :=
  cat.savePlanned handle id value none

def saveWithMeta (id : Id) (header : Metadata) (value : T) : Engine (Stored T) (Catalog d × Change T) :=
  cat.savePlanned handle id value (some header)

def chainIntoLiving (id : Id) (imposed : Option Metadata) (value : T) :
    Engine (Stored T) (Catalog d × Change T) := do
  let (batch, _, header) ← planChainedSave (savePlan d.kind handle cat.chains id imposed true) value
  match header.succession with
  | .next _ => .fail (.chainCorrupt id)
  | .createdAt instant =>
    Engine.apply batch
    return (cat.enter (.ofId id) instant (header, value), .saved id header value)

def upsertKeyed (id : Id) (value : T) : Engine (Stored T) (Catalog d × Change T) := do
  match ← anchor d.kind id with
  | .living _ _ => cat.savePlanned handle id value none
  | _ => cat.chainIntoLiving handle id none value

def insert (value : T) : Engine (Stored T) (Catalog d × Change T) :=
  match keyedAnchor d.kind handle value with
  | some id => cat.upsertKeyed handle id value
  | none => do
      let id ← mintFlooredId handle.tenant d.hash cat.chains.instantFloor
      cat.insertAt handle id value

def remove (id : Id) : Engine (Stored T) (Catalog d × Option (Change T)) := do
  match ← anchor d.kind id with
  | .living header value =>
    let removedAt ← Engine.mintInstant cat.chains.instantFloor
    Engine.apply [.put id ({ header with removed := true }, value)]
    return (cat.leave (.ofId id) header.succession removedAt value, some (.removed id removedAt))
  | _ => return (cat, none)

def adoptWith [DecidableEq T] (id : Id) (header : Metadata) (value : T) : Engine (Stored T) (Catalog d) := do
  match ← anchor d.kind id with
  | .living existing body =>
    if existing = header ∧ body = value then return cat
    else return (← cat.saveWithMeta handle id header value).1
  | .dead => return (← cat.chainIntoLiving handle id (some header) value).1
  | .vacant => return (← cat.insertWithMeta id header value).1

end Operations

section Reads

def resolve (hash tenant : Nat) : List Key → Engine (Stored T) (List (Id × Stored T))
  | [] => return []
  | key :: keys => do
      match ← Engine.getOf hash (key.anchor.toId tenant) with
      | none => .fail (.recordMissing (key.anchor.toId tenant))
      | some record => do
          let rest ← resolve hash tenant keys
          return (key.anchor.toId tenant, record) :: rest

def all (tenant : Nat) : Engine (Stored T) (List (Id × Stored T)) :=
  resolve d.hash tenant cat.chains.recency.reverse

def listed (tenant : Nat) (i : Fin d.numLists) : List (Id × Stored T) :=
  (cat.lists i).map fun entry => (entry.1.anchor.toId tenant, entry.2)

end Reads

-- The chains of a catalog are what the collection model without one keeps.
section Chains

def onChains {α : Type} (p : Engine (Stored T) (Catalog d × α)) : Engine (Stored T) (Chains × α) := do
  let result ← p
  return (result.1.chains, result.2)

variable {cat} {handle : Handle} {id : Id} {value : T} {header : Metadata}

theorem onChains_insertWithMeta : onChains (cat.insertWithMeta id header value) =
    Collection.insertWithMeta cat.chains id header value := by
  rw [onChains, insertWithMeta, Collection.insertWithMeta]
  cases header.succession with
  | createdAt instant =>
    simp only [bind_assoc, pure_bind]
    rfl
  | next successor => rfl

theorem onChains_savePlanned {imposed : Option Metadata} :
    onChains (cat.savePlanned handle id value imposed) =
      Collection.savePlanned d.kind handle cat.chains id value imposed := by
  rw [onChains, savePlanned, Collection.savePlanned]
  split
  · rfl
  · rw [bind_assoc]
    refine bind_congr fun planned => ?_
    obtain ⟨batch, old, header⟩ := planned
    cases old with
    | none =>
      by_cases hsecondaries : 0 < d.numSecondaries
      · have hkind : Collection.planReindex d.kind cat.chains.recency none id header =
            .fail (.recordMissing id) := if_pos hsecondaries
        simp only [planReindex, if_pos hsecondaries, hkind]
        rfl
      · have hkind : Collection.planReindex d.kind cat.chains.recency none id header =
            return cat.chains.recency := if_neg hsecondaries
        simp only [planReindex, if_neg hsecondaries, hkind, bind_assoc, pure_bind]
    | some old =>
      obtain ⟨authored, oldValue⟩ := old
      simp only [planReindex, Collection.planReindex, planChainMove]
      cases header.succession with
      | createdAt instant =>
        simp only [bind_assoc, pure_bind, move]
        split <;> rfl
      | next successor => rfl

theorem onChains_chainIntoLiving {imposed : Option Metadata} :
    onChains (cat.chainIntoLiving handle id imposed value) =
      Collection.chainIntoLiving d.kind handle cat.chains id imposed value := by
  rw [onChains, chainIntoLiving, Collection.chainIntoLiving, bind_assoc]
  refine bind_congr fun planned => ?_
  obtain ⟨batch, old, header⟩ := planned
  cases hs : header.succession with
  | createdAt instant =>
    simp only [hs, bind_assoc, pure_bind]
    rfl
  | next successor =>
    simp only [hs]
    rfl

theorem onChains_insert : onChains (cat.insert handle value) =
    Collection.insert d.kind handle cat.chains value := by
  rw [insert, Collection.insert]
  cases keyedAnchor d.kind handle value with
  | none =>
    simp only [onChains, bind_assoc]
    exact bind_congr fun id => onChains_insertWithMeta
  | some id =>
    simp only [onChains, upsertKeyed, Collection.upsertKeyed, bind_assoc]
    refine bind_congr fun found => ?_
    cases found with
    | living header body => exact onChains_savePlanned
    | dead => exact onChains_chainIntoLiving
    | vacant => exact onChains_chainIntoLiving

theorem onChains_save : onChains (cat.save handle id value) =
    Collection.save d.kind handle cat.chains id value :=
  onChains_savePlanned

theorem onChains_remove : onChains (cat.remove id) = Collection.remove d.kind cat.chains id := by
  simp only [onChains, remove, Collection.remove, bind_assoc]
  refine bind_congr fun found => ?_
  cases found with
  | living header body =>
    simp only [bind_assoc, pure_bind]
    rfl
  | dead => rfl
  | vacant => rfl

end Chains

end Catalog

end WaveDb.Collection
