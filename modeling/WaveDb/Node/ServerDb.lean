import WaveDb.Collection.Perform
import WaveDb.Node.Dispatch

-- The context the body of a server function runs against, and whom its writes
-- name as their author.
namespace WaveDb.Node

open WaveDb.Lib WaveDb.Core WaveDb.Collection

section Contexts

structure LocalHandle where
  tenant : Nat

namespace LocalHandle

-- `Collection::at` stamps with the tenant.
def col (handle : LocalHandle) (pivot : LocalId) : Collection.Handle :=
  ⟨pivot, handle.tenant, handle.tenant⟩

end LocalHandle

structure ServerDb where
  inner : LocalHandle
  user : Nat

namespace ServerDb

def forCaller (caller : Caller) : ServerDb := ⟨⟨caller.tenant⟩, caller.user⟩

def tenant (db : ServerDb) : Nat := db.inner.tenant

def asTenant (db : ServerDb) (tenant : Nat) : ServerDb := ⟨⟨tenant⟩, db.user⟩

def asIdentity (_ : ServerDb) (user tenant : Nat) : ServerDb := ⟨⟨tenant⟩, user⟩

end ServerDb

inductive Rescope
  | tenant (tenant : Nat)
  | identity (user tenant : Nat)

def ServerDb.rescope (db : ServerDb) : Rescope → ServerDb
  | .tenant tenant => db.asTenant tenant
  | .identity user tenant => db.asIdentity user tenant

def contextOf (caller : Caller) (moves : List Rescope) : ServerDb :=
  moves.foldl ServerDb.rescope (.forCaller caller)

end Contexts

section Writes

variable {T : Type}

def uniquePlan (hash tenant user : Nat) : SavePlan where
  hash := hash
  shape := .unique
  liveId := uniqueAnchor tenant hash
  tenant := tenant
  user := user
  pivotId := none
  imposed := none
  floor := 0
  revives := false

def saveUniqueAs (hash tenant user : Nat) (value : T) : Engine (Stored T) (Collection.Change T) := do
  let (batch, _, header) ← planChainedSave (uniquePlan hash tenant user) value
  Engine.apply batch
  return .saved (uniqueAnchor tenant hash) header value

def saveUnique (hash tenant : Nat) (value : T) : Engine (Stored T) (Collection.Change T) :=
  saveUniqueAs hash tenant tenant value

inductive Saving (T : Type)
  | unique (hash : Nat) (value : T)
  | insert (kind : Kind T) (pivot : LocalId) (chains : Chains) (value : T)
  | update (kind : Kind T) (pivot : LocalId) (chains : Chains) (id : Id) (value : T)

def LocalHandle.write (handle : LocalHandle) : Saving T → Engine (Stored T) (Collection.Change T)
  | .unique hash value => saveUnique hash handle.tenant value
  | .insert kind pivot chains value => do
      return (← Collection.insert kind (handle.col pivot) chains value).2
  | .update kind pivot chains id value => do
      return (← Collection.save kind (handle.col pivot) chains id value).2

def ServerDb.write (db : ServerDb) (saving : Saving T) : Engine (Stored T) (Collection.Change T) :=
  db.inner.write saving

end Writes

section Authorship

variable {T : Type} [DecidableEq T]

inductive Authored (user : Nat) : Outcome Error (Collection.Change T) × World (Stored T) → Prop
  | refused (e : Error) (w' : World (Stored T)) : Authored user (.error e, w')
  | saved {id : Id} {header : Metadata} {value : T} {w' : World (Stored T)}
      (hstored : w'.store id = some (header, value)) (huser : header.user = user) :
      Authored user (.ok (.saved id header value), w')

inductive Stamped (user : Nat) : Outcome Error (Chains × Collection.Change T) × World (Stored T) → Prop
  | refused (e : Error) (w' : World (Stored T)) : Stamped user (.error e, w')
  | saved {chains : Chains} {id : Id} {header : Metadata} {value : T} {w' : World (Stored T)}
      (hstored : w'.store id = some (header, value)) (huser : header.user = user) :
      Stamped user (.ok (chains, .saved id header value), w')

variable {kind : Kind T} {handle : Collection.Handle} {chains : Chains} {id : Id} {value : T}
  {w : World (Stored T)} {user : Nat}

theorem Stamped.authored {p : Engine (Stored T) (Chains × Collection.Change T)}
    (h : Stamped user (p.runIn w)) :
    Authored user ((p >>= fun r => (return r.2 : Engine (Stored T) _)).runIn w) := by
  generalize hr : p.runIn w = r at h
  cases h with
  | refused e w' =>
    rw [Engine.runIn_bind_error hr]
    exact .refused e w'
  | saved hstored huser =>
    rw [Engine.runIn_bind_ok hr]
    exact .saved hstored huser

omit [DecidableEq T] in
theorem store_replaced (s : Site T) (slot id : Id) (old : Stored T) (authored instant : Nat)
    (header : Metadata) (value : T) :
    s.replaced slot id old authored instant header value id = some (header, value) := by
  unfold Site.replaced Site.next
  split <;> exact Function.update_self ..

theorem savePlanned_stamped :
    Stamped handle.user ((savePlanned kind handle chains id value none).runIn w) := by
  by_cases hid : ∀ a ∈ keyedAnchor kind handle value, a = id
  · cases hstore : w.store id with
    | none =>
      have hauthor : Authors (savePlan kind handle chains id none false) chains.instantFloor
          (savePlan kind handle chains id none false).firstMeta w _ _ := runIn_author_none rfl _ _
      by_cases hkind : kind.secondaries = 0
      · rw [runIn_savePlanned_first hstore hid hkind hauthor]
        exact .saved (Function.update_self ..) rfl
      · rw [runIn_savePlanned_missing hstore hid hkind hauthor]
        exact .refused _ _
    | some stored =>
      obtain ⟨old, oldValue⟩ := stored
      cases hauthored : old.succession with
      | next successor =>
        rw [runIn_savePlanned_archived hstore hauthored hid]
        exact .refused _ _
      | createdAt authored =>
        have hauthor : Authors (savePlan kind handle chains id none false)
            (max authored chains.instantFloor)
            ((savePlan kind handle chains id none false).nextMeta old authored) w _ _ :=
          runIn_author_none rfl _ _
        rw [runIn_savePlanned_next hstore hauthored rfl hid hauthor]
        exact .saved (store_replaced ..) rfl
  · rw [savePlanned, if_pos (not_not.mp (mt not_foreign_iff.mp hid))]
    exact .refused _ _

theorem chainIntoLiving_stamped :
    Stamped handle.user ((chainIntoLiving kind handle chains id none value).runIn w) := by
  cases hstore : w.store id with
  | none =>
    have hauthor : Authors (savePlan kind handle chains id none true) chains.instantFloor
        (savePlan kind handle chains id none true).firstMeta w _ _ := runIn_author_none rfl _ _
    rw [runIn_chainIntoLiving_first hstore rfl hauthor]
    exact .saved (Function.update_self ..) rfl
  | some stored =>
    obtain ⟨old, oldValue⟩ := stored
    cases hauthored : old.succession with
    | next successor =>
      rw [runIn_chainIntoLiving_archived hstore hauthored]
      exact .refused _ _
    | createdAt authored =>
      have hauthor : Authors (savePlan kind handle chains id none true)
          (max authored chains.instantFloor)
          ((savePlan kind handle chains id none true).nextMeta old authored) w _ _ :=
        runIn_author_none rfl _ _
      rw [runIn_chainIntoLiving_next hstore hauthored rfl hauthor]
      exact .saved (store_replaced ..) rfl

theorem upsertKeyed_stamped :
    Stamped handle.user ((upsertKeyed kind handle chains id value).runIn w) := by
  rw [upsertKeyed, Engine.runIn_bind_ok (runIn_anchor w id)]
  split
  · exact savePlanned_stamped
  · exact chainIntoLiving_stamped

theorem insert_stamped :
    Stamped handle.user ((Collection.insert kind handle chains value).runIn w) := by
  unfold Collection.insert
  split
  · exact upsertKeyed_stamped
  · have hmint : (mintFlooredId handle.tenant kind.hash chains.instantFloor :
        Engine (Stored T) Id).runIn w =
        (.ok (Id.new (w.minted chains.instantFloor) handle.tenant false (typeSalt kind.hash)),
          w.mint chains.instantFloor) := rfl
    rw [Engine.runIn_bind_ok hmint, insertAt, runIn_insertWithMeta rfl]
    exact .saved (Function.update_self ..) rfl

theorem saveUniqueAs_authored (hash tenant user : Nat) :
    Authored user ((saveUniqueAs hash tenant user value).runIn w) := by
  cases hstore : w.store (uniquePlan hash tenant user).liveId with
  | none =>
    have hauthor : Authors (uniquePlan hash tenant user) 0
        (uniquePlan hash tenant user).firstMeta w _ _ := runIn_author_none rfl _ _
    have hplan := runIn_planChainedSave_vacant value
      hstore hauthor
    have happly := Engine.runIn_apply (conflict_first hstore
      ((uniquePlan hash tenant user).firstMeta (w.minted 0)) value hash (store_author hauthor))
    rw [saveUniqueAs, Engine.runIn_bind_ok hplan]
    refine (Engine.runIn_bind_ok happly).symm ▸ ?_
    exact .saved (Function.update_self ..) rfl
  | some stored =>
    obtain ⟨old, oldValue⟩ := stored
    cases hauthored : old.succession with
    | next successor =>
      have hplan := runIn_planChainedSave_archived value
        hstore hauthored
      rw [saveUniqueAs, Engine.runIn_bind_error hplan]
      exact .refused _ _
    | createdAt authored =>
      have hauthor : Authors (uniquePlan hash tenant user) (max authored 0)
          ((uniquePlan hash tenant user).nextMeta old authored) w _ _ :=
        runIn_author_none rfl _ _
      have hplan := runIn_planChainedSave_chained value
        hstore hauthored hauthor rfl
      have happly := runIn_apply_nextBatch hstore ⟨[], []⟩ hash
        ((uniquePlan hash tenant user).slot authored) authored (w.minted (max authored 0))
        ((uniquePlan hash tenant user).nextMeta old authored (w.minted (max authored 0))) value
        (store_author hauthor)
      rw [saveUniqueAs, Engine.runIn_bind_ok hplan]
      refine (Engine.runIn_bind_ok happly).symm ▸ ?_
      exact .saved (store_replaced ..) rfl

theorem write_authored (db : ServerDb) (saving : Saving T) (w : World (Stored T)) :
    Authored db.tenant ((db.write saving).runIn w) := by
  cases saving with
  | unique hash value => exact saveUniqueAs_authored hash db.tenant db.tenant
  | insert kind pivot chains value =>
    have hstamped : Stamped (db.inner.col pivot).user
        ((Collection.insert kind (db.inner.col pivot) chains value).runIn w) := insert_stamped
    exact hstamped.authored
  | update kind pivot chains id value =>
    have hstamped : Stamped (db.inner.col pivot).user
        ((save kind (db.inner.col pivot) chains id value).runIn w) := savePlanned_stamped
    exact hstamped.authored

def guest : Caller := ⟨5, 7⟩

def vacantWorld : World (Stored Nat) := ⟨fun _ => none, fun n => n, 0⟩

end Authorship

end WaveDb.Node
