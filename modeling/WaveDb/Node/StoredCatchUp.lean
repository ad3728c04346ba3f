import WaveDb.Collection.Reads
import WaveDb.Index.Chain.Locate
import WaveDb.Node.Changes

-- Catch-up on the stored segments of a collection's chains.
namespace WaveDb.Node

open WaveDb.Lib WaveDb.Core WaveDb.Index
open WaveDb.Collection (Key Living Whole Declaration Catalog Chains Built savedEntry entries entries_distinct
  runIn_collectionChanges oneNote onward_oneNote built_noNotes)

variable {V : Type} [LaneCodec V (Segment Key Unit)]

def past (cursor : Nat) (segs : Segs Key Unit) : List Key :=
  ((entriesOf segs).map Prod.fst).filter (cursor < ·.instant)

def Keeps (s : Store V) (c : Chain) (keys : List Key) : Prop :=
  ∃ segs : Segs Key Unit, ChainShape c segs ∧ Holds s (segCells V c.tenant c.laneHash none segs none) ∧
    (entriesOf segs).map Prod.fst = keys

variable [DecidableEq V] {w : World V} {c : Chain} {cursor : Nat}

theorem past_append (a b : Segs Key Unit) : past cursor (a ++ b) = past cursor a ++ past cursor b := by
  rw [past, entriesOf_append, List.map_append, List.filter_append]
  rfl

-- The segments before one that reaches the cursor have nothing past it.
theorem past_eq_nil {a b : Segs Key Unit} {s : LocalId × List (Key × Unit)}
    (hs : Ascending Prod.fst (entriesOf (a ++ s :: b)))
    (hreached : (s.2.head?.map Prod.fst).any (·.instant ≤ cursor) = true) : past cursor a = [] := by
  obtain ⟨key, hkey, hle⟩ := (Option.any_eq_true _ _).mp hreached
  obtain ⟨e, he, rfl⟩ := Option.map_eq_some_iff.mp hkey
  rw [entriesOf_append, entriesOf_cons] at hs
  refine List.filter_eq_nil_iff.mpr fun key hmem hlt => ?_
  obtain ⟨e', he', rfl⟩ := List.mem_map.mp hmem
  have hbefore := Key.instant_le_of_lt (hs.append.2.2 e' he' e (List.mem_append_left _ (List.mem_of_head? he)))
  simp only [decide_eq_true_eq] at hle hlt
  omega

theorem tailSince_segment (cursor : Nat) {a b : Segs Key Unit} {s : LocalId × List (Key × Unit)}
    (hheld : Holds w.store (segCells V c.tenant c.laneHash none (a ++ s :: b) none)) (fuel : Nat) (keys : List Key) :
    (ChangesCodec.tailSince c cursor (fuel + 1) (some s.1) keys).runIn w =
      (ChangesCodec.tailSince c cursor fuel
        (if (s.2.head?.map Prod.fst).any (·.instant ≤ cursor) then none else lastId none a)
        (keys ++ past cursor [s])).runIn w := by
  rw [ChangesCodec.tailSince, Engine.runIn_bind_ok (load_segment hheld)]
  simp only [Segment.firstKey, past, entriesOf, List.flatMap_singleton]
  rfl

theorem runIn_tailSince (a b : Segs Key Unit) (s : LocalId × List (Key × Unit)) (keys : List Key)
    (hs : Ascending Prod.fst (entriesOf (a ++ s :: b)))
    (hheld : Holds w.store (segCells V c.tenant c.laneHash none (a ++ s :: b) none)) :
    ∃ scanned, scanned.Perm (past cursor (a ++ [s])) ∧ ∀ fuel, a.length + 1 < fuel →
      (ChangesCodec.tailSince c cursor fuel (some s.1) keys).runIn w = (.ok (keys ++ scanned), w) := by
  induction a using List.reverseRecOn generalizing s b keys with
  | nil =>
    refine ⟨past cursor [s], .rfl, fun fuel hfuel => ?_⟩
    obtain ⟨fuel, rfl⟩ := Nat.exists_eq_add_of_le' hfuel
    rw [List.length_nil, tailSince_segment _ hheld, lastId, ite_self]
    rfl
  | append_singleton a p ih =>
    have hstep := tailSince_segment cursor hheld
    rw [lastId_append, lastId, lastId] at hstep
    split at hstep
    · rename_i hreached
      refine ⟨past cursor [s], ?_, fun fuel hfuel => ?_⟩
      · rw [past_append, past_eq_nil hs hreached]
        rfl
      · obtain ⟨fuel, rfl⟩ := Nat.exists_eq_add_of_le' hfuel
        exact hstep _ keys
    · rw [List.append_assoc, List.singleton_append] at hs hheld
      obtain ⟨scanned, hperm, hrun⟩ := ih (s :: b) p (keys ++ past cursor [s]) hs hheld
      refine ⟨past cursor [s] ++ scanned, ?_, fun fuel hfuel => ?_⟩
      · rw [past_append]
        exact List.perm_append_comm.trans (hperm.append_right _)
      · obtain ⟨fuel, rfl⟩ := Nat.exists_eq_add_of_le' hfuel
        rw [← List.append_assoc, Nat.add_succ, hstep]
        exact hrun _ (by simp; omega)

theorem exists_tail {segs : Segs Key Unit} (h : ChainShape c segs) : ∃ a s, segs = a ++ [s] ∧ s.1 = c.tail := by
  obtain ⟨a, s, rfl⟩ := (List.eq_nil_or_concat segs).resolve_left h.ne_nil
  have htail := h.tail
  rw [List.concat_eq_append, lastId_append] at htail
  exact ⟨a, s, List.concat_eq_append, Option.some.inj htail⟩

-- The scan gives the keys past the cursor, in some order.
theorem Keeps.tailSince {keys : List Key} (h : Keeps w.store c keys) (cursor : Nat) :
    ∃ scanned, scanned.Perm (keys.filter (cursor < ·.instant)) ∧
      Engine.Returns (fun fuel => ChangesCodec.tailSince c cursor fuel (some c.tail) []) w scanned w := by
  obtain ⟨segs, hshape, hheld, rfl⟩ := h
  obtain ⟨a, s, rfl, htail⟩ := exists_tail hshape
  obtain ⟨scanned, hperm, hrun⟩ := runIn_tailSince a [] s [] hshape.sorted hheld
  rw [htail] at hrun
  exact ⟨scanned, hperm, .intro _ hrun⟩

-- A chain of several segments has no empty one.
theorem Keeps.lastKey {keys : List Key} (h : Keeps w.store c keys) :
    ∃ seg : Segment Key Unit, (c.load c.tail : Engine V _).runIn w = (.ok seg, w) ∧ seg.lastKey = keys.getLast? := by
  obtain ⟨segs, hshape, hheld, rfl⟩ := h
  obtain ⟨a, s, rfl, htail⟩ := exists_tail hshape
  refine ⟨_, htail ▸ load_segment hheld, ?_⟩
  rw [Segment.lastKey, entriesOf_append, entriesOf_cons, List.getLast?_map]
  congr 1
  cases a with
  | nil => simp [entriesOf]
  | cons s' a =>
    have hfull := hshape.full (by simp) s (by simp)
    rw [show entriesOf [] = [] from rfl, List.append_nil, List.getLast?_append_of_ne_nil _ hfull]

theorem runIn_instantFloor {c' : Chain} {keys keys' : List Key} (h : Keeps w.store c keys)
    (h' : Keeps w.store c' keys') : (ChangesCodec.instantFloor c c').runIn w =
      (.ok (Chains.instantFloor ⟨keys, keys'⟩), w) := by
  obtain ⟨seg, hseg, hlast⟩ := h.lastKey
  obtain ⟨log, hlog, hlast'⟩ := h'.lastKey
  rw [ChangesCodec.instantFloor, Engine.runIn_bind_ok hseg, Engine.runIn_bind_ok hlog, hlast, hlast']
  rfl

section Answer

variable {T F : Type} {d : Declaration T F} {tenant : Nat} {x : Whole d} {living : Living T}
  {codec : ChangesCodec V} {encode : T → Bytes} {pivot : LocalId}

def sent (encode : T → Bytes) : WaveDb.Collection.Change T → Change
  | .saved id header value => .saved id header (encode value)
  | .removed id instant => .removed id instant

-- The cells of a collection: its pivot, its two chains, and its living records
-- with their values encoded.
structure Stores (codec : ChangesCodec V) (encode : T → Bytes) (tenant : Nat) (pivot : LocalId) (x : Whole d)
    (living : Living T) (s : Store V) : Prop where
  chains : ∃ bytes recency removals, s (pivot.toId tenant) = some bytes ∧
    codec.chains d.hash tenant bytes = .ok (recency, removals) ∧
    Keeps s recency x.catalog.chains.recency ∧ Keeps s removals x.catalog.chains.removals
  records : ∀ a r, living a = some r → ∃ bytes, s (a.toId tenant) = some bytes ∧
    codec.splitRecord d.hash bytes = .ok (r.2.1, encode r.2.2)

theorem Stores.readSaved (h : Stores codec encode tenant pivot x living w.store) {keys : List Key}
    (hkeys : ∀ key ∈ keys, living key.anchor ≠ none) :
    (codec.readSaved d.hash tenant keys).runIn w =
      (.ok ((keys.filterMap (savedEntry tenant living)).map (Prod.map id (sent encode))), w) := by
  induction keys with
  | nil => rfl
  | cons key keys ih =>
    obtain ⟨hkey, hrest⟩ := List.forall_mem_cons.mp hkeys
    obtain ⟨r, hr⟩ := Option.ne_none_iff_exists'.mp hkey
    obtain ⟨bytes, hbytes, hsplit⟩ := h.records _ r hr
    have hentry : savedEntry tenant living key =
        some (key.instant, .saved (key.anchor.toId tenant) r.2.1 r.2.2) := by
      rw [savedEntry, hr]
      rfl
    rw [ChangesCodec.readSaved, Engine.runIn_bind_ok (Engine.runIn_getOf _ _ _), List.filterMap_cons_some hentry]
    simp only [hbytes, hsplit]
    exact Engine.runIn_bind_ok (ih hrest)

variable [DecidableEq T] [LinearOrder F]

-- The step on the stored segments answers as the one on the chains as lists.
theorem stored_catch_up (h : Built d tenant x living) (hstores : Stores codec encode tenant pivot x living w.store)
    (since : Option Nat) (clock : Nat → Nat) (last : Nat) :
    ∃ cursor changes, (x.catalog.collectionChanges tenant since).runIn ⟨x.store, clock, last⟩ =
        (.ok (cursor, changes), ⟨x.store, clock, last⟩) ∧
      Engine.Returns (fun fuel => codec.collectionChanges fuel d.hash pivot tenant since) w
        (codec.values cursor (changes.map (sent encode))) w := by
  obtain ⟨bytes, recency, removals, hpivot, hchains, hrecency, hremovals⟩ := hstores.chains
  have hopen : Engine.runIn (Prog.ofExcept (codec.chains d.hash tenant bytes)) w =
      (.ok (recency, removals), w) := by
    rw [hchains]
    rfl
  cases since with
  | none =>
    refine ⟨_, _, rfl, .intro 0 fun fuel _ => ?_⟩
    rw [ChangesCodec.collectionChanges, Engine.runIn_bind_ok (Engine.runIn_getOf _ _ _), hpivot]
    refine (Engine.runIn_bind_ok hopen).trans ?_
    exact Engine.runIn_bind_ok (runIn_instantFloor hrecency hremovals)
  | some cursor =>
    obtain ⟨saved, hsaved, m, hscan⟩ := hrecency.tailSince cursor
    obtain ⟨removed, hremoved, n, hscan'⟩ := hremovals.tailSince cursor
    refine ⟨_, _, runIn_collectionChanges h.faithful, .intro (max m n) fun fuel hfuel => ?_⟩
    rw [ChangesCodec.collectionChanges, Engine.runIn_bind_ok (Engine.runIn_getOf _ _ _), hpivot]
    refine (Engine.runIn_bind_ok hopen).trans ?_
    refine (Engine.runIn_bind_ok (hscan fuel (by omega))).trans ?_
    refine (Engine.runIn_bind_ok (hscan' fuel (by omega))).trans ?_
    refine (Engine.runIn_bind_ok (hstores.readSaved ?_)).trans ?_
    · intro key hkey
      obtain ⟨record, hrecord⟩ := h.faithful.held.mem_recency.mp (List.mem_of_mem_filter (hsaved.mem_iff.mp hkey))
      rw [hrecord]
      exact Option.some_ne_none _
    · have hperm : ((saved.filterMap (savedEntry tenant living)).map (Prod.map id (sent encode)) ++
          removed.map fun key : Key => (key.instant, Change.removed (key.anchor.toId tenant) key.instant)).Perm
          ((entries tenant cursor living x.catalog.chains).map (Prod.map id (sent encode))) := by
        rw [entries, List.map_append, List.map_map]
        exact ((hsaved.filterMap _).map _).append (hremoved.map _)
      have hsorted := sorted_map (entries_distinct h.faithful h.timed) (sent encode) hperm
      rw [← ChangesCodec.timeline, ← Catalog.timeline] at hsorted
      simp only [hsorted, List.getLast?_map, Option.map_map, List.map_map]
      rfl

end Answer

section Notes

instance laneCodecNote : LaneCodec (Segment Key Unit ⊕ Stored (Nat × Nat)) (Segment Key Unit) where
  toBytes _ seg := .inl seg
  fromBytes _ v := v.elim .ok fun _ => .error .wire
  fromBytes_toBytes _ _ := rfl

def noteBytes (value : Nat × Nat) : Bytes := [UInt8.ofNat value.1, UInt8.ofNat value.2]

def noteChain (tenant key : Nat) : Chain := ⟨⟨key, 2 ^ 15⟩, ⟨key, 2 ^ 15⟩, tenant, key, none, 4⟩

def noteChanges : ChangesCodec (Segment Key Unit ⊕ Stored (Nat × Nat)) where
  query _ := .ok (none, none)
  pivotHash := id
  chains _ tenant _ := .ok (noteChain tenant 1, noteChain tenant 2)
  splitRecord _ v := v.elim (fun _ => .error .wire) fun record => .ok (record.1, noteBytes record.2)
  change
    | .saved _ _ body => body
    | .cursor instant | .removed _ instant => [UInt8.ofNat instant]
  refusal _ := .backend "refused"

def noteCells (id : Id) : Option (Segment Key Unit ⊕ Stored (Nat × Nat)) :=
  if id.lower = 2 ^ 15 then
    some (.inl ⟨none, none, if id.key = 1 then oneNote.catalog.chains.recency.map (·, ()) else []⟩)
  else (oneNote.store id).map .inr

theorem keeps_noteCells (key : Nat) :
    Keeps noteCells (noteChain 1 key) (if key = 1 then oneNote.catalog.chains.recency else []) := by
  obtain ⟨k, hk⟩ : ∃ k, oneNote.catalog.chains.recency = [k] := ⟨_, rfl⟩
  refine ⟨[(⟨key, 2 ^ 15⟩, if key = 1 then oneNote.catalog.chains.recency.map (·, ()) else [])],
    ⟨rfl, rfl, ?_, fun hlen => (lt_irrefl _ hlen).elim, ?_⟩, ?_, ?_⟩
  · by_cases hkey : key = 1 <;> simp [hkey, hk, entriesOf, Ascending]
  · by_cases hkey : key = 1 <;> simp [hkey, hk, noteChain]
  · simp [Holds, segCells, noteCells, noteChain, firstId, LocalId.toId, LaneCodec.toBytes]
  · by_cases hkey : key = 1 <;> simp [hkey, hk, entriesOf]

theorem stored_catch_up_note : ∃ cursor changes,
    (oneNote.catalog.collectionChanges 1 (some 2)).runIn ⟨oneNote.store, id, 0⟩ =
      (.ok (cursor, changes), ⟨oneNote.store, id, 0⟩) ∧
    Engine.Returns (fun fuel => noteChanges.collectionChanges fuel 9 ⟨3, 2 ^ 15⟩ 1 (some 2)) ⟨noteCells, id, 0⟩
      (noteChanges.values cursor (changes.map (sent noteBytes))) ⟨noteCells, id, 0⟩ := by
  obtain ⟨living, honward⟩ := onward_oneNote
  have hbuilt := honward.built built_noNotes
  refine stored_catch_up hbuilt ⟨⟨_, _, _, rfl, rfl, keeps_noteCells 1, keeps_noteCells 2⟩, fun a r hr => ?_⟩
    (some 2) id 0
  obtain ⟨hflag, hstore, -⟩ := hbuilt.faithful.live_iff.mpr ⟨r.1, hr⟩
  have hlower : (a.toId 1).lower ≠ 2 ^ 15 := fun hlower => by
    rw [LocalId.flag, show a.lower = 2 ^ 15 from hlower] at hflag
    cases hflag
  refine ⟨.inr r.2, ?_, rfl⟩
  change noteCells (a.toId 1) = _
  rw [noteCells, if_neg hlower, hstore]
  rfl

end Notes

end WaveDb.Node
