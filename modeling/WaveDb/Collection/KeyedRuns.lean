import WaveDb.Collection.Upserts

-- Runs of inserts and removals of a keyed type: each key has at most one living record.
namespace WaveDb.Collection

open WaveDb.Lib WaveDb.Core

section Model

variable {T F K J : Type} {d : Declaration T F}

inductive KeyedCall (T K : Type)
  | insert (value : T)
  | remove (key : K)

structure Made (T K : Type) where
  call : KeyedCall T K
  clock : Nat → Nat
  last : Nat

structure Whole (d : Declaration T F) where
  store : Store (Stored T)
  catalog : Catalog d

namespace KeyedCall

variable [DecidableEq J] (f : K → J) (key : T → K) (j : J)

-- The value a call writes under a key. Keys are compared by what `f` makes of them.
def written : KeyedCall T K → List T
  | .insert value => if f (key value) = j then [value] else []
  | .remove _ => []

def lives (alive : Bool) : KeyedCall T K → Bool
  | .insert value => if f (key value) = j then true else alive
  | .remove k => if f k = j then false else alive

end KeyedCall

def KeyedCall.keyOf (key : T → K) : KeyedCall T K → K
  | .insert value => key value
  | .remove k => k

section Spec

variable [DecidableEq J] (f : K → J) (key : T → K) (j : J)

def valuesOf (calls : List (Made T K)) : List T := calls.flatMap fun m => m.call.written f key j

def livesAfter (alive : Bool) (calls : List (Made T K)) : Bool :=
  calls.foldl (fun alive m => m.call.lives f key j alive) alive

end Spec

variable [DecidableEq T] [LinearOrder F] (handle : Handle) (hashKey : K → Nat)

def KeyedCall.run (catalog : Catalog d) : KeyedCall T K → Engine (Stored T) (Catalog d)
  | .insert value => do return (← catalog.insert handle value).1
  | .remove key => do return (← catalog.remove (d.site handle (hashKey key))).1

def Made.world (m : Made T K) (x : Whole d) : World (Stored T) := ⟨x.store, m.clock, m.last⟩

def Made.answer (m : Made T K) (x : Whole d) : Outcome Error (Catalog d) × World (Stored T) :=
  (m.call.run handle hashKey x.catalog).runIn (m.world x)

def Made.on (m : Made T K) (x : Whole d) : Whole d :=
  match m.answer handle hashKey x with
  | (.ok catalog, w) => ⟨w.store, catalog⟩
  | (_, w) => ⟨w.store, x.catalog⟩

def callAll : Whole d → List (Made T K) → Whole d
  | x, [] => x
  | x, m :: rest => callAll (m.on handle hashKey x) rest

def Answered : Whole d → List (Made T K) → Prop
  | _, [] => True
  | x, m :: rest => (∃ catalog, (m.answer handle hashKey x).1 = .ok catalog) ∧
      Answered (m.on handle hashKey x) rest

-- No call finds the latest instant of the collection at the last `u64`.
def Rising : Whole d → List (Made T K) → Prop
  | _, [] => True
  | x, m :: rest => x.catalog.chains.instantFloor < 2 ^ 64 - 1 ∧ Rising (m.on handle hashKey x) rest

end Model

section Step

variable {T F K : Type} [LinearOrder F] {d : Declaration T F} {handle : Handle}
  {key : T → K} {hashKey : K → Nat} {x : Whole d} {versions : Nat → List (Nat × T)} {living : Nat → Bool}

theorem Kept.authored (h : Kept d handle x.store x.catalog versions living) {n : Nat} {old : Stored T}
    (hold : x.store (d.site handle n) = some old) :
    ∃ authored, old.1.succession = .createdAt authored ∧ authored ≤ x.catalog.chains.instantFloor ∧
      old.1.removed = !living n := by
  have hstands := h.anchors n
  have hbelow := h.below n
  cases hversions : versions n with
  | nil =>
    rw [hversions, Stands, hold] at hstands
    cases hstands.1
  | cons p older =>
    rw [hversions] at hstands hbelow
    obtain ⟨header, hstore, hauthored, hremoved, -⟩ := hstands
    rw [hold] at hstore
    cases hstore
    exact ⟨p.1, hauthored, hbelow p List.mem_cons_self, hremoved⟩

variable [DecidableEq T]

structure Stepped (handle : Handle) (key : T → K) (hashKey : K → Nat) (m : Made T K) (x : Whole d)
    (versions : Nat → List (Nat × T)) (living : Nat → Bool) : Prop where
  answered : ∃ catalog, (m.answer handle hashKey x).1 = .ok catalog
  kept : ∃ versions' : Nat → List (Nat × T),
    Kept d handle (m.on handle hashKey x).store (m.on handle hashKey x).catalog versions'
      (fun n => m.call.lives hashKey key n (living n)) ∧
    ∀ n, (versions' n).map Prod.snd = m.call.written hashKey key n ++ (versions n).map Prod.snd

theorem Stepped.intro {m : Made T K} {catalog : Catalog d} {w : World (Stored T)}
    {versions' : Nat → List (Nat × T)} {living' : Nat → Bool}
    (hanswer : m.answer handle hashKey x = (.ok catalog, w)) (hkept : Kept d handle w.store catalog versions' living')
    (hliving : ∀ n, m.call.lives hashKey key n (living n) = living' n)
    (hvalues : ∀ n, (versions' n).map Prod.snd = m.call.written hashKey key n ++ (versions n).map Prod.snd) :
    Stepped handle key hashKey m x versions living := by
  have hon : m.on handle hashKey x = ⟨w.store, catalog⟩ := by rw [Made.on, hanswer]
  refine ⟨⟨catalog, by rw [hanswer]⟩, versions', ?_, hvalues⟩
  rw [hon, funext hliving]
  exact hkept

theorem Kept.insert (h : Kept d handle x.store x.catalog versions living)
    (hlast : x.catalog.chains.instantFloor < 2 ^ 64 - 1)
    (hkey : d.naturalKey = some fun value => hashKey (key value)) {m : Made T K} {value : T}
    (hcall : m.call = .insert value) : Stepped handle key hashKey m x versions living := by
  have hid : keyedAnchor d.kind handle value = some (d.site handle (hashKey (key value))) := by
    simp only [keyedAnchor, Declaration.kind, hkey, Option.map_some]
    rfl
  have hauthored : ∀ old ∈ (m.world x).store (d.site handle (hashKey (key value))), ∃ authored,
      old.1.succession = .createdAt authored ∧ authored ≤ x.catalog.chains.instantFloor := by
    intro old hold
    obtain ⟨authored, hauthored, hbelow, -⟩ := h.authored hold
    exact ⟨authored, hauthored, hbelow⟩
  obtain ⟨after, store, change, hinserted, hrun⟩ := Catalog.runIn_insert hid hauthored hlast
  have hanswer : m.answer handle hashKey x =
      (.ok after, ((m.world x).mint x.catalog.chains.instantFloor).holding store) := by
    rw [Made.answer, hcall]
    exact Engine.runIn_bind_ok hrun
  refine .intro hanswer (Kept.inserted h hlast hinserted) (fun n => ?_) fun n => ?_
  · rw [hcall, KeyedCall.lives, Function.update_apply]
    simp only [eq_comm]
  · rw [hcall, KeyedCall.written, Function.update_apply]
    split
    · rename_i hn
      rw [hn, if_pos rfl]
      rfl
    · rename_i hn
      rw [if_neg (Ne.symm hn)]
      rfl

theorem Kept.remove (h : Kept d handle x.store x.catalog versions living)
    (hlast : x.catalog.chains.instantFloor < 2 ^ 64 - 1) {m : Made T K} {k : K}
    (hcall : m.call = .remove k) : Stepped handle key hashKey m x versions living := by
  have hwritten : ∀ n, (versions n).map Prod.snd = m.call.written hashKey key n ++ (versions n).map Prod.snd := by
    intro n
    rw [hcall]
    rfl
  have hlives : ∀ n, m.call.lives hashKey key n (living n) = Function.update living (hashKey k) false n := by
    intro n
    rw [hcall, KeyedCall.lives, Function.update_apply]
    simp only [eq_comm]
  have hanswer : ∀ {catalog change w}, (x.catalog.remove (d.site handle (hashKey k))).runIn (m.world x) =
      (.ok (catalog, change), w) → m.answer handle hashKey x = (.ok catalog, w) := by
    intro catalog change w hrun
    rw [Made.answer, hcall]
    exact Engine.runIn_bind_ok hrun
  cases hliving : living (hashKey k) with
  | true =>
    have hstands := h.anchors (hashKey k)
    cases hversions : versions (hashKey k) with
    | nil =>
      rw [hversions, Stands, hliving] at hstands
      cases hstands.2
    | cons p older =>
      rw [hversions, hliving] at hstands
      obtain ⟨header, hstore, hauthored, hremoved, -⟩ := hstands
      exact .intro (hanswer (Catalog.runIn_remove_living hstore hremoved))
        (h.removed (World.floor_lt_minted hlast) hstore hauthored hremoved) hlives hwritten
  | false =>
    have hdead : ∀ old ∈ (m.world x).store (d.site handle (hashKey k)), old.1.removed = true := by
      intro old hold
      obtain ⟨authored, -, -, hremoved⟩ := h.authored hold
      rw [hremoved, hliving]
      rfl
    rw [← hliving, Function.update_eq_self] at hlives
    exact .intro (hanswer (Catalog.runIn_remove_idle hdead)) h hlives hwritten

theorem Kept.step (h : Kept d handle x.store x.catalog versions living)
    (hlast : x.catalog.chains.instantFloor < 2 ^ 64 - 1)
    (hkey : d.naturalKey = some fun value => hashKey (key value)) (m : Made T K) :
    Stepped handle key hashKey m x versions living := by
  cases hcall : m.call with
  | insert value => exact h.insert hlast hkey hcall
  | remove k => exact h.remove hlast hcall

-- A whole run: the versions under each key are the values inserted there.
theorem Kept.run (h : Kept d handle x.store x.catalog versions living)
    (hkey : d.naturalKey = some fun value => hashKey (key value)) {calls : List (Made T K)}
    (hrising : Rising handle hashKey x calls) :
    Answered handle hashKey x calls ∧ ∃ versions' : Nat → List (Nat × T),
      Kept d handle (callAll handle hashKey x calls).store (callAll handle hashKey x calls).catalog versions'
        (fun n => livesAfter hashKey key n (living n) calls) ∧
      ∀ n, (versions' n).map Prod.snd = (valuesOf hashKey key n calls).reverse ++ (versions n).map Prod.snd := by
  induction calls generalizing x versions living with
  | nil => exact ⟨trivial, versions, h, fun n => rfl⟩
  | cons m rest ih =>
    obtain ⟨hanswered, versions₁, hkept, hvalues⟩ := h.step hrising.1 hkey m
    obtain ⟨hrest, versions₂, hkept₂, hvalues₂⟩ := ih hkept hrising.2
    refine ⟨⟨hanswered, hrest⟩, versions₂, hkept₂, fun n => ?_⟩
    have hreverse : (m.call.written hashKey key n).reverse = m.call.written hashKey key n := by
      cases m.call with
      | insert value =>
        rw [KeyedCall.written]
        split <;> rfl
      | remove k => rfl
    rw [hvalues₂, hvalues, valuesOf, valuesOf, List.flatMap_cons, List.reverse_append, hreverse,
      List.append_assoc]

end Step

section Reads

variable {T F : Type} [LinearOrder F] {d : Declaration T F} {handle : Handle} {s : Store (Stored T)}
  {cat : Catalog d} {versions : Nat → List (Nat × T)} {living : Nat → Bool}

theorem Stands.livingRecord_iff {id : Id} {live : Bool} {vs : List (Nat × T)} (h : Stands s id live vs)
    {instant : Nat} {record : Stored T} : livingRecord (s id) = some (instant, record) ↔
      s id = some record ∧ live = true ∧ vs.head? = some (instant, record.2) := by
  cases vs with
  | nil =>
    rw [h.1]
    simp [livingRecord]
  | cons p older =>
    obtain ⟨header, hstore, hauthored, hremoved, -⟩ := h
    rw [hstore]
    simp only [livingRecord, hauthored, hremoved, List.head?_cons, Option.some.injEq]
    cases live with
    | false => simp
    | true =>
      simp only [Bool.not_true, Bool.false_eq_true, if_false, Option.some.injEq, true_and]
      constructor
      · rintro ⟨rfl, rfl⟩
        exact ⟨rfl, rfl⟩
      · rintro ⟨rfl, hp⟩
        rw [hp]

theorem Kept.livingAt_iff (h : Kept d handle s cat versions living) {anchor : LocalId} {instant : Nat}
    {record : Stored T} : livingAt d handle s anchor = some (instant, record) ↔
      ∃ n, anchor = .ofId (d.site handle n) ∧ s (d.site handle n) = some record ∧ living n = true ∧
        (versions n).head? = some (instant, record.2) := by
  constructor
  · intro hliving
    rw [livingAt] at hliving
    split at hliving
    · rename_i hsite
      exact ⟨anchor.key, hsite, (h.anchors _).livingRecord_iff.mp hliving⟩
    · cases hliving
  · rintro ⟨n, rfl, hrecord⟩
    rw [livingAt_site]
    exact (h.anchors n).livingRecord_iff.mpr hrecord

theorem Kept.recency_nodup (h : Kept d handle s cat versions living) :
    (cat.chains.recency.map Key.anchor).Nodup := by
  refine List.Nodup.map_on (fun a ha b hb hab => ?_) (h.catalogued.recency.ascending.imp fun hlt => ne_of_lt hlt)
  obtain ⟨r, hr, hmem⟩ := (h.catalogued.recency.mem a).mp ha
  obtain ⟨r', hr', hmem'⟩ := (h.catalogued.recency.mem b).mp hb
  rw [List.mem_singleton] at hmem hmem'
  rw [hab, hr'] at hr
  cases hr
  rw [hmem, hmem', hab]

theorem Kept.head (h : Kept d handle s cat versions living) {n : Nat} {record : Stored T}
    (hrecord : s (d.site handle n) = some record) :
    ∃ instant, (versions n).head? = some (instant, record.2) := by
  have hstands := h.anchors n
  cases hversions : versions n with
  | nil =>
    rw [hversions, Stands, hrecord] at hstands
    cases hstands.1
  | cons p older =>
    rw [hversions] at hstands
    obtain ⟨header, hstore, -⟩ := hstands
    rw [hrecord] at hstore
    cases hstore
    exact ⟨p.1, rfl⟩

theorem Kept.mem_recency (h : Kept d handle s cat versions living) {key : Key} :
    key ∈ cat.chains.recency ↔ ∃ n record, key.anchor = .ofId (d.site handle n) ∧
      s (d.site handle n) = some record ∧ living n = true ∧ (versions n).head? = some (key.instant, record.2) := by
  rw [h.catalogued.recency.mem]
  constructor
  · rintro ⟨⟨instant, record⟩, hr, hkey⟩
    rw [List.mem_singleton.mp hkey] at hr ⊢
    obtain ⟨n, hrecord⟩ := h.livingAt_iff.mp hr
    exact ⟨n, record, hrecord⟩
  · rintro ⟨n, record, hrecord⟩
    exact ⟨(key.instant, record), h.livingAt_iff.mpr ⟨n, hrecord⟩, List.mem_singleton.mpr rfl⟩

variable [DecidableEq T]

theorem runIn_resolve {hash tenant : Nat} {w : World (Stored T)} {keys : List Key}
    (h : ∀ key ∈ keys, ∃ record, w.store (key.anchor.toId tenant) = some record) :
    ∃ records : List (Id × Stored T), (Catalog.resolve hash tenant keys).runIn w = (.ok records, w) ∧
      records.map Prod.fst = keys.map (fun key => key.anchor.toId tenant) ∧
      ∀ p ∈ records, w.store p.1 = some p.2 := by
  induction keys with
  | nil => exact ⟨[], rfl, rfl, by simp⟩
  | cons key keys ih =>
    obtain ⟨record, hrecord⟩ := h key List.mem_cons_self
    obtain ⟨records, hrun, hids, hstore⟩ := ih fun key hkey => h key (List.mem_cons_of_mem _ hkey)
    refine ⟨(key.anchor.toId tenant, record) :: records, ?_, congrArg _ hids, ?_⟩
    · rw [Catalog.resolve, Engine.runIn_bind_ok (Engine.runIn_getOf _ _ _), hrecord]
      exact Engine.runIn_bind_ok hrun
    · exact List.forall_mem_cons.mpr ⟨hrecord, hstore⟩

theorem Kept.all (h : Kept d handle s cat versions living) (clock : Nat → Nat) (last : Nat) :
    ∃ records : List (Id × Stored T),
      (cat.all handle.tenant).runIn ⟨s, clock, last⟩ = (.ok records, ⟨s, clock, last⟩) ∧
      (records.map Prod.fst).Nodup ∧
      ∀ id record, (id, record) ∈ records ↔ ∃ n, id = d.site handle n ∧ s id = some record ∧
        living n = true := by
  have hsite : ∀ {key : Key} {n : Nat}, key.anchor = .ofId (d.site handle n) →
      key.anchor.toId handle.tenant = d.site handle n := by
    intro key n hanchor
    rw [hanchor]
    rfl
  obtain ⟨records, hrun, hids, hstore⟩ : ∃ records : List (Id × Stored T),
      (cat.all handle.tenant).runIn ⟨s, clock, last⟩ = (.ok records, ⟨s, clock, last⟩) ∧
      records.map Prod.fst = cat.chains.recency.reverse.map (fun key => key.anchor.toId handle.tenant) ∧
      ∀ p ∈ records, s p.1 = some p.2 := by
    refine runIn_resolve fun key hkey => ?_
    obtain ⟨n, record, hanchor, hrecord, -⟩ := h.mem_recency.mp (List.mem_reverse.mp hkey)
    exact ⟨record, (congrArg s (hsite hanchor)).trans hrecord⟩
  refine ⟨records, hrun, ?_, fun id record => ?_⟩
  · have hnodup : ((cat.chains.recency.map Key.anchor).map fun anchor => anchor.toId handle.tenant).Nodup :=
      h.recency_nodup.map fun a b hab => LocalId.toId_inj.mp hab
    rw [hids, List.map_reverse, List.nodup_reverse]
    rwa [List.map_map] at hnodup
  · have hid : id ∈ records.map Prod.fst ↔ ∃ key ∈ cat.chains.recency, key.anchor.toId handle.tenant = id := by
      rw [hids]
      simp
    constructor
    · intro hp
      obtain ⟨key, hkey, rfl⟩ := hid.mp (List.mem_map_of_mem hp)
      obtain ⟨n, -, hanchor, -, hliving, -⟩ := h.mem_recency.mp hkey
      exact ⟨n, hsite hanchor, hstore _ hp, hliving⟩
    · rintro ⟨n, rfl, hrecord, hliving⟩
      obtain ⟨instant, hhead⟩ := h.head hrecord
      have hkey : ⟨instant, .ofId (d.site handle n)⟩ ∈ cat.chains.recency :=
        h.mem_recency.mpr ⟨n, record, rfl, hrecord, hliving, hhead⟩
      obtain ⟨⟨id, found⟩, hp, rfl⟩ := List.mem_map.mp (hid.mpr ⟨_, hkey, rfl⟩)
      have hfound : found = record := Option.some.inj ((hstore _ hp).symm.trans hrecord)
      rwa [hfound] at hp

end Reads

section Spec

variable {T F K : Type} {d : Declaration T F} {handle : Handle} {key : T → K} {hashKey : K → Nat}

def keysOf (key : T → K) (calls : List (Made T K)) : Set K := { k | ∃ m ∈ calls, m.call.keyOf key = k }

variable [DecidableEq K]

theorem hashed_call {keys : Set K} (hinj : Set.InjOn hashKey keys) {call : KeyedCall T K}
    (hcall : call.keyOf key ∈ keys) {k : K} (hk : k ∈ keys) :
    call.written hashKey key (hashKey k) = call.written id key k ∧
      ∀ alive, call.lives hashKey key (hashKey k) alive = call.lives id key k alive := by
  cases call with
  | insert value =>
    have hiff : hashKey (key value) = hashKey k ↔ key value = k := hinj.eq_iff hcall hk
    simp only [KeyedCall.written, KeyedCall.lives, id, hiff, implies_true, and_self]
  | remove k' =>
    have hiff : hashKey k' = hashKey k ↔ k' = k := hinj.eq_iff hcall hk
    simp only [KeyedCall.written, KeyedCall.lives, id, hiff, implies_true, and_self]

theorem hashed_calls {calls : List (Made T K)} {keys : Set K} (hinj : Set.InjOn hashKey keys)
    (hcalls : ∀ m ∈ calls, m.call.keyOf key ∈ keys) {k : K} (hk : k ∈ keys) :
    valuesOf hashKey key (hashKey k) calls = valuesOf id key k calls ∧
      ∀ alive, livesAfter hashKey key (hashKey k) alive calls = livesAfter id key k alive calls := by
  induction calls with
  | nil => exact ⟨rfl, fun _ => rfl⟩
  | cons m rest ih =>
    obtain ⟨hwritten, hlives⟩ := hashed_call hinj (hcalls m List.mem_cons_self) hk
    obtain ⟨hvalues, hafter⟩ := ih fun m hm => hcalls m (List.mem_cons_of_mem _ hm)
    constructor
    · rw [valuesOf, List.flatMap_cons, hwritten]
      exact congrArg _ hvalues
    · intro alive
      rw [livesAfter, List.foldl_cons, hlives]
      exact hafter _

omit [DecidableEq K] in
theorem length_valuesOf (n : Nat) (calls : List (Made T K)) :
    (valuesOf hashKey key n calls).length ≤ calls.length := by
  induction calls with
  | nil => exact le_rfl
  | cons m rest ih =>
    have hone : (m.call.written hashKey key n).length ≤ 1 := by
      cases m.call with
      | insert value =>
        rw [KeyedCall.written]
        split <;> simp
      | remove k => simp [KeyedCall.written]
    rw [valuesOf] at ih
    rw [valuesOf, List.flatMap_cons, List.length_append, List.length_cons]
    omega

omit [DecidableEq K] in
theorem exists_key_of_lives {calls : List (Made T K)} {n : Nat} {alive : Bool}
    (h : livesAfter hashKey key n alive calls = true) : alive = true ∨ ∃ k ∈ keysOf key calls, hashKey k = n := by
  induction calls generalizing alive with
  | nil => exact .inl h
  | cons m rest ih =>
    rcases ih h with hlives | ⟨k, ⟨m', hm', hk⟩, hn⟩
    · cases hcall : m.call with
      | insert value =>
        simp only [hcall, KeyedCall.lives] at hlives
        split at hlives
        · rename_i hn
          exact .inr ⟨key value, ⟨m, List.mem_cons_self, by rw [hcall]; rfl⟩, hn⟩
        · exact .inl hlives
      | remove k =>
        simp only [hcall, KeyedCall.lives] at hlives
        split at hlives
        · cases hlives
        · exact .inl hlives
    · exact .inr ⟨k, ⟨m', List.mem_cons_of_mem _ hm', hk⟩, hn⟩

variable [LinearOrder F]

structure Current (handle : Handle) (key : T → K) (hashKey : K → Nat) (calls : List (Made T K)) (x : Whole d)
    (k : K) (record : Stored T) : Prop where
  called : k ∈ keysOf key calls
  lives : livesAfter id key k false calls = true
  value : (valuesOf id key k calls).getLast? = some record.2
  stored : x.store (d.site handle (hashKey k)) = some record

structure OnePerKey [DecidableEq T] (handle : Handle) (key : T → K) (hashKey : K → Nat) (calls : List (Made T K)) (x : Whole d) :
    Prop where
  -- A key is living exactly if its last call was an insert.
  living : ∀ k ∈ keysOf key calls, livesAfter id key k false calls = true ↔
    ∃ record, x.store (d.site handle (hashKey k)) = some record ∧ record.1.removed = false
  all : ∀ clock last, ∃ records : List (Id × Stored T),
    (x.catalog.all handle.tenant).runIn ⟨x.store, clock, last⟩ = (.ok records, ⟨x.store, clock, last⟩) ∧
    (records.map Prod.fst).Nodup ∧
    ∀ id record, (id, record) ∈ records ↔
      ∃ k, id = d.site handle (hashKey k) ∧ Current handle key hashKey calls x k record
  history : ∀ k ∈ keysOf key calls, valuesOf id key k calls ≠ [] → ∀ clock last fuel, calls.length < fuel →
    ∃ records : List (Stored T), records.map Prod.snd = (valuesOf id key k calls).reverse ∧
      (historyFrom d.hash .nonUnique handle.tenant fuel (d.site handle (hashKey k))).runIn ⟨x.store, clock, last⟩ =
        (.ok (records.map .ok), ⟨x.store, clock, last⟩)
  lists : ∀ i, (x.catalog.lists i).Nodup ∧ ∀ entry, entry ∈ x.catalog.lists i ↔
    ∃ k record, Current handle key hashKey calls x k record ∧
      entry = (⟨d.listField i record.2, .ofId (d.site handle (hashKey k))⟩, record)
  secondaries : ∀ i, (x.catalog.secondaries i).Nodup ∧ ∀ entry, entry ∈ x.catalog.secondaries i ↔
    ∃ k record, Current handle key hashKey calls x k record ∧
      entry = ⟨d.secondaryField i record.2, .ofId (d.site handle (hashKey k))⟩
  fuzzy : ∀ i, (x.catalog.fuzzy i).Nodup ∧ ∀ entry, entry ∈ x.catalog.fuzzy i ↔
    ∃ k record, Current handle key hashKey calls x k record ∧
      ∃ field ∈ d.fuzzyFields i record.2, entry = ⟨field, .ofId (d.site handle (hashKey k))⟩

section Final

variable {calls : List (Made T K)} {x : Whole d} {versions : Nat → List (Nat × T)}
  (hinj : Set.InjOn hashKey (keysOf key calls))
  (hkept : Kept d handle x.store x.catalog versions fun n => livesAfter hashKey key n false calls)
  (hvalues : ∀ n, (versions n).map Prod.snd = (valuesOf hashKey key n calls).reverse)

include hinj hkept hvalues

theorem current_iff {k : K} {record : Stored T} : Current handle key hashKey calls x k record ↔
    k ∈ keysOf key calls ∧ livesAfter hashKey key (hashKey k) false calls = true ∧
      x.store (d.site handle (hashKey k)) = some record := by
  constructor
  · intro h
    obtain ⟨-, hlives⟩ := hashed_calls hinj (fun m hm => ⟨m, hm, rfl⟩) h.called
    exact ⟨h.called, (hlives false).trans h.lives, h.stored⟩
  · rintro ⟨hcalled, hliving, hstored⟩
    obtain ⟨hvalue, hlives⟩ := hashed_calls hinj (fun m hm => ⟨m, hm, rfl⟩) hcalled
    obtain ⟨instant, hhead⟩ := hkept.head hstored
    refine ⟨hcalled, (hlives false).symm.trans hliving, ?_, hstored⟩
    have hlast := congrArg List.head? (hvalues (hashKey k))
    rw [List.head?_map, hhead, List.head?_reverse, hvalue] at hlast
    exact hlast.symm

theorem livingAt_current {anchor : LocalId} {record : Stored T} :
    (∃ instant, livingAt d handle x.store anchor = some (instant, record)) ↔
      ∃ k, anchor = .ofId (d.site handle (hashKey k)) ∧ Current handle key hashKey calls x k record := by
  constructor
  · rintro ⟨instant, hliving⟩
    obtain ⟨n, hanchor, hstored, hlives, -⟩ := hkept.livingAt_iff.mp hliving
    obtain ⟨k, hk, rfl⟩ := (exists_key_of_lives hlives).resolve_left (by simp)
    exact ⟨k, hanchor, (current_iff hinj hkept hvalues).mpr ⟨hk, hlives, hstored⟩⟩
  · rintro ⟨k, hanchor, hcurrent⟩
    obtain ⟨-, hlives, hstored⟩ := (current_iff hinj hkept hvalues).mp hcurrent
    obtain ⟨instant, hhead⟩ := hkept.head hstored
    exact ⟨instant, hkept.livingAt_iff.mpr ⟨_, hanchor, hstored, hlives, hhead⟩⟩

omit [DecidableEq K] hinj hvalues in
theorem living_iff {n : Nat} : livesAfter hashKey key n false calls = true ↔
    ∃ record, x.store (d.site handle n) = some record ∧ record.1.removed = false := by
  have hstands := hkept.anchors n
  cases hversions : versions n with
  | nil =>
    rw [hversions] at hstands
    simp [hstands.1, hstands.2]
  | cons p older =>
    rw [hversions] at hstands
    obtain ⟨header, hstore, -, hremoved, -⟩ := hstands
    rw [hstore]
    simp [hremoved]

theorem mem_indexed {E O : Type} [LinearOrder O] {f : E → O} {owner : E → LocalId}
    (entries : LocalId → Stored T → List E) {xs : List E}
    (h : Indexes f owner (fun anchor r => entries anchor r.2) (livingAt d handle x.store) xs)
    (howner : ∀ anchor record, ∀ e ∈ entries anchor record, owner e = anchor) (e : E) :
    e ∈ xs ↔ ∃ k record, Current handle key hashKey calls x k record ∧
      e ∈ entries (.ofId (d.site handle (hashKey k))) record := by
  rw [h.mem]
  constructor
  · rintro ⟨⟨instant, record⟩, hr, he⟩
    obtain ⟨k, hanchor, hcurrent⟩ := (livingAt_current hinj hkept hvalues).mp ⟨instant, hr⟩
    exact ⟨k, record, hcurrent, hanchor ▸ he⟩
  · rintro ⟨k, record, hcurrent, he⟩
    obtain ⟨instant, hliving⟩ := (livingAt_current hinj hkept hvalues).mpr ⟨k, rfl, hcurrent⟩
    rw [howner _ _ e he]
    exact ⟨(instant, record), hliving, he⟩

omit [DecidableEq K] hinj hkept hvalues in
theorem nodup_of_ascending {E O : Type} [LinearOrder O] {f : E → O} {xs : List E} (h : Ascending f xs) : xs.Nodup :=
  h.imp fun hlt heq => hlt.ne (congrArg f heq)

variable [DecidableEq T]

theorem history_of_values {k : K} (hk : k ∈ keysOf key calls) (hne : valuesOf id key k calls ≠ [])
    (clock : Nat → Nat) (last : Nat) {fuel : Nat} (hfuel : calls.length < fuel) :
    ∃ records : List (Stored T), records.map Prod.snd = (valuesOf id key k calls).reverse ∧
      (historyFrom d.hash .nonUnique handle.tenant fuel (d.site handle (hashKey k))).runIn ⟨x.store, clock, last⟩ =
        (.ok (records.map .ok), ⟨x.store, clock, last⟩) := by
  obtain ⟨hhashed, -⟩ := hashed_calls hinj (fun m hm => ⟨m, hm, rfl⟩) hk
  have hvalues := hvalues (hashKey k)
  have hlength : (valuesOf hashKey key (hashKey k) calls).length ≤ calls.length := length_valuesOf _ calls
  have hstands := hkept.anchors (hashKey k)
  have harchives := hkept.archives (hashKey k)
  rw [← hhashed] at hne ⊢
  rw [← List.length_reverse, ← hvalues, List.length_map] at hlength
  cases hversions : versions (hashKey k) with
  | nil =>
    rw [hversions] at hvalues
    exact (hne (List.reverse_eq_nil_iff.mp hvalues.symm)).elim
  | cons p older =>
    rw [hversions] at hvalues hlength hstands harchives
    obtain ⟨header, hstore, -, -, hprevious⟩ := hstands
    have hshort : older.length < fuel := by
      rw [List.length_cons] at hlength
      omega
    obtain ⟨records, hrecords, hrun⟩ := runIn_historyFrom (w := ⟨x.store, clock, last⟩)
      ⟨header, hstore, hprevious⟩ harchives hshort
    exact ⟨records, hrecords.trans hvalues, hrun⟩

theorem onePerKey : OnePerKey handle key hashKey calls x := by
  constructor
  · intro k hk
    obtain ⟨-, hlives⟩ := hashed_calls hinj (fun m hm => ⟨m, hm, rfl⟩) hk
    rw [← hlives]
    exact living_iff hkept
  · intro clock last
    obtain ⟨records, hrun, hnodup, hmem⟩ := hkept.all clock last
    refine ⟨records, hrun, hnodup, fun id record => (hmem id record).trans ?_⟩
    constructor
    · rintro ⟨n, rfl, hstored, hlives⟩
      obtain ⟨k, hk, rfl⟩ := (exists_key_of_lives hlives).resolve_left (by simp)
      exact ⟨k, rfl, (current_iff hinj hkept hvalues).mpr ⟨hk, hlives, hstored⟩⟩
    · rintro ⟨k, rfl, h⟩
      obtain ⟨-, hlives, hstored⟩ := (current_iff hinj hkept hvalues).mp h
      exact ⟨hashKey k, rfl, hstored, hlives⟩
  · exact fun k hk hne clock last fuel hfuel => history_of_values hinj hkept hvalues hk hne clock last hfuel
  · intro i
    refine ⟨nodup_of_ascending (hkept.catalogued.lists i).ascending, fun entry => ?_⟩
    have hmem := mem_indexed hinj hkept hvalues
      (fun anchor record => [(Catalog.listKey i record.2 anchor, record)]) (hkept.catalogued.lists i)
      (fun anchor record e he => by rw [List.mem_singleton.mp he]; rfl) entry
    simpa only [List.mem_singleton, Catalog.listKey] using hmem
  · intro i
    refine ⟨nodup_of_ascending (hkept.catalogued.secondaries i).ascending, fun entry => ?_⟩
    have hmem := mem_indexed hinj hkept hvalues
      (fun anchor record => [Catalog.secKey i record.2 anchor]) (hkept.catalogued.secondaries i)
      (fun anchor record e he => by rw [List.mem_singleton.mp he]; rfl) entry
    simpa only [List.mem_singleton, Catalog.secKey] using hmem
  · intro i
    refine ⟨nodup_of_ascending (hkept.catalogued.fuzzy i).ascending, fun entry => ?_⟩
    have hmem := mem_indexed hinj hkept hvalues
      (fun anchor record => Catalog.fuzzyKeys i record.2 anchor) (hkept.catalogued.fuzzy i)
      (fun anchor record e he => mem_fuzzyKeys_anchor e he) entry
    simpa only [Catalog.fuzzyKeys, List.mem_map, eq_comm] using hmem

end Final

variable [DecidableEq T]

omit [DecidableEq T] [DecidableEq K] in
theorem Kept.empty {start : Store (Stored T)} (hstart : ∀ n, start (d.site handle n) = none) :
    Kept d handle start (Catalog.empty d) (fun _ => []) fun _ => false := by
  have hliving : ∀ anchor, livingAt d handle start anchor = none := by
    intro anchor
    rw [livingAt, hstart]
    split <;> rfl
  constructor
  · exact fun n => ⟨hstart n, rfl⟩
  · exact fun n => trivial
  · simp
  · simp
  · simp
  · exact ⟨⟨.nil hliving, fun i => .nil hliving⟩, fun i => .nil hliving, fun i => .nil hliving⟩
  · exact List.Pairwise.nil

-- After any calls each key has at most one record, as long as the instants can rise.
theorem upsert_keyed_one_per_key (handle : Handle) (hkey : d.naturalKey = some fun value => hashKey (key value))
    (start : Store (Stored T)) (hstart : ∀ n, start (d.site handle n) = none) (calls : List (Made T K))
    (hinj : Set.InjOn hashKey (keysOf key calls))
    (hrising : Rising handle hashKey ⟨start, Catalog.empty d⟩ calls) :
    Answered handle hashKey ⟨start, Catalog.empty d⟩ calls ∧
      OnePerKey handle key hashKey calls (callAll handle hashKey ⟨start, Catalog.empty d⟩ calls) := by
  obtain ⟨hanswered, versions, hkept, hvalues⟩ :=
    Kept.run (x := ⟨start, Catalog.empty d⟩) (Kept.empty hstart) hkey hrising
  refine ⟨hanswered, onePerKey hinj hkept fun n => ?_⟩
  rw [hvalues, List.map_nil, List.append_nil]

def notes : Declaration (Nat × Nat) Nat where
  hash := 9
  naturalKey := some Prod.fst
  numLists := 1
  listField _ note := note.2
  numSecondaries := 1
  secondaryField _ note := note.2
  numFuzzy := 1
  fuzzyFields _ note := [note.2, note.2 + 1]

def noteHandle : Handle := ⟨⟨3, 0⟩, 1, 1⟩

def madeAt (now : Nat) (call : KeyedCall (Nat × Nat) Nat) : Made (Nat × Nat) Nat := ⟨call, fun _ => now, 0⟩

def noNotes : Whole notes := ⟨fun _ => none, Catalog.empty notes⟩

def noteCalls : List (Made (Nat × Nat) Nat) :=
  [madeAt 4 (.insert (1, 5)), madeAt 4 (.insert (2, 6)), madeAt 8 (.remove 1), madeAt 2 (.insert (1, 7))]

theorem upsert_keyed_one_per_key_notes :
    Answered noteHandle id noNotes noteCalls ∧
      OnePerKey noteHandle Prod.fst id noteCalls (callAll noteHandle id noNotes noteCalls) :=
  upsert_keyed_one_per_key noteHandle rfl (fun _ => none) (fun _ => rfl) noteCalls Function.injective_id.injOn
    ⟨by decide, by decide, by decide, by decide, trivial⟩

-- At the last instant of a `u64` the older value of a note is lost.
theorem upsert_keyed_last_instant :
    let calls := [madeAt (2 ^ 64 - 1) (.insert (1, 5)), madeAt (2 ^ 64 - 1) (.insert (1, 6))]
    valuesOf id Prod.fst 1 calls = [(1, 5), (1, 6)] ∧
      ∃ header, ((historyFrom 9 .nonUnique 1 3 (notes.site noteHandle 1)).runIn
        ⟨(callAll noteHandle id noNotes calls).store, fun _ => 0, 0⟩).1 =
          .ok [.ok (header, (1, 6)), .error (.recordMissing (notes.kind.slot noteHandle (2 ^ 64 - 1)))] :=
  ⟨rfl, _, rfl⟩

end Spec

end WaveDb.Collection
