import WaveDb.Storage.Interleaved.Reads

-- A shard's store: a cache of records by id in front of the disk actor. A task gives
-- way at its request, and answers resume their tasks in any order.
namespace WaveDb.Node.Shard

open WaveDb.Lib WaveDb.Core WaveDb.Storage
open WaveDb.Storage.Interleaved (Slot Routed route)

section Disk

variable (cfg : Config)

structure Disk where
  slots : Nat → Slot

def fromPages (slot : Slot) (id : Id) : Option Storage.Bytes := if id ∈ slot.dead then none else slot.pages id

namespace Disk

def readOf (d : Disk) (hash : Nat) (id : Id) : Option Storage.Bytes :=
  if cfg.registered hash then (d.slots hash).read id else none

def readAny (d : Disk) (id : Id) : Option Storage.Bytes :=
  (cfg.hashes.findSome? fun hash => (d.slots hash).cache.get id).or
    (cfg.hashes.findSome? fun hash => fromPages (d.slots hash) id)

def checkGuards (d : Disk) : List (Write Storage.Bytes) → Except StorageError Unit
  | [] => .ok ()
  | .expect hash id expected :: batch =>
    if d.readOf cfg hash id = expected then d.checkGuards batch else .error (.core (.conflict id))
  | _ :: batch => d.checkGuards batch

def commit (d : Disk) (write : Write Storage.Bytes) : Disk :=
  match route write with
  | some w => ⟨Function.update d.slots w.hash { d.slots w.hash with
      cache := w.cacheWrite (d.slots w.hash).cache, dead := w.deadWrite (d.slots w.hash).dead }⟩
  | none => d

def applyInner (d : Disk) (batch : List (Write Storage.Bytes)) : Except StorageError Disk := do
  routeBatch cfg batch
  d.checkGuards cfg batch
  return (batch.filter fun write => !write.isGuard).foldl commit d

end Disk

inductive Request
  | get (id : Id)
  | getOf (hash : Nat) (id : Id)
  | apply (batch : List (Write Storage.Bytes))

abbrev Answer := Except StorageError (Option Storage.Bytes)

-- `serve`. An apply has no value to answer.
def Disk.serve (d : Disk) : Request → Answer × Disk
  | .get id => (.ok (d.readAny cfg id), d)
  | .getOf hash id => (.ok (d.readOf cfg hash id), d)
  | .apply batch =>
    match d.applyInner cfg batch with
    | .ok d' => (.ok none, d')
    | .error e => (.error e, d)

end Disk

section Store

-- Records by id, `none` for one that is known to be absent. `bytes` counts
-- what is held.
structure ShardStore where
  cache : Table Id (Option Storage.Bytes)
  bytes : Nat
  budget : Nat

namespace ShardStore

def heldBytes (value : Option Storage.Bytes) : Nat := (value.map List.length).getD 0

def bytesWith (s : ShardStore) (id : Id) (value : Option Storage.Bytes) : Nat :=
  s.bytes - heldBytes ((s.cache.get id).getD none) + heldBytes value

def memoise (s : ShardStore) (id : Id) (value : Option Storage.Bytes) : ShardStore :=
  if s.budget = 0 then s
  else if s.budget < s.bytesWith id value then { s with cache := [], bytes := 0 }
  else { s with cache := s.cache.put id value, bytes := s.bytesWith id value }

def adoptWrite (s : ShardStore) : Write Storage.Bytes → ShardStore
  | .put id bytes => s.memoise id (some bytes)
  | .remove _ id => s.memoise id none
  | .expect _ _ _ => s

def adopt (s : ShardStore) (batch : List (Write Storage.Bytes)) : ShardStore := batch.foldl adoptWrite s

end ShardStore

end Store

section Tasks

-- A request under way: on its way to the actor, or answered with the task not
-- resumed. The answers are numbered in the order the actor gives them.
inductive Flight
  | asked (request : Request)
  | answered (request : Request) (answer : Answer) (seq : Nat)

-- Returns, the number of answers, and the last answer to a write of each id are
-- histories.
structure State where
  disk : Disk
  store : ShardStore
  tasks : Nat → Option Flight
  served : Nat
  lastWrite : Id → Nat
  returned : List (Nat × Request × Answer)

def State.new (disk : Disk) (budget : Nat) : State :=
  ⟨disk, ⟨[], 0, budget⟩, fun _ => none, 0, fun _ => 0, []⟩

inductive Event
  | issue (t : Nat) (request : Request)
  | serve (t : Nat) (fault : Bool)
  | resume (t : Nat)
  | maintain (disk : Disk)

def writtenBy : Write Storage.Bytes → Id → Option (Option Storage.Bytes)
  | .put i bytes, id => if i = id then some (some bytes) else none
  | .remove _ i, id => if i = id then some none else none
  | .expect _ _ _, _ => none

def written : List (Write Storage.Bytes) → Id → Option (Option Storage.Bytes)
  | [], _ => none
  | write :: batch, id => (written batch id).or (writtenBy write id)

def changed : Request → Answer → Id → Option (Option Storage.Bytes)
  | .apply batch, .ok _, id => written batch id
  | _, _, _ => none

namespace State

def cached (s : State) : Request → Option (Option Storage.Bytes)
  | .get id => s.store.cache.get id
  | .getOf _ id => s.store.cache.get id
  | .apply _ => none

def issue (s : State) (t : Nat) (request : Request) : State :=
  match s.cached request with
  | some hit => { s with returned := s.returned ++ [(t, request, .ok hit)] }
  | none => { s with tasks := Function.update s.tasks t (some (.asked request)) }

def noteWrites (lastWrite : Id → Nat) (seq : Nat) (request : Request) (answer : Answer) (id : Id) : Nat :=
  if (changed request answer id).isSome then seq else lastWrite id

def answered (s : State) (t : Nat) (request : Request) (answer : Answer) (disk : Disk) : State :=
  { s with
    disk := disk
    tasks := Function.update s.tasks t (some (.answered request answer (s.served + 1)))
    served := s.served + 1
    lastWrite := noteWrites s.lastWrite (s.served + 1) request answer }

def serve (cfg : Config) (s : State) (t : Nat) (request : Request) (fault : Bool) : State :=
  if fault then s.answered t request (.error .io) s.disk
  else s.answered t request (s.disk.serve cfg request).1 (s.disk.serve cfg request).2

def remember (store : ShardStore) : Request → Answer → ShardStore
  | .get id, .ok value => store.memoise id value
  | .getOf _ id, .ok value => store.memoise id value
  | .apply batch, .ok _ => store.adopt batch
  | _, .error _ => store

def resume (s : State) (t : Nat) (request : Request) (answer : Answer) : State :=
  { s with
    store := remember s.store request answer
    tasks := Function.update s.tasks t none
    returned := s.returned ++ [(t, request, answer)] }

def exec (cfg : Config) (s : State) : Event → Option State
  | .issue t request =>
    match s.tasks t with
    | none => some (s.issue t request)
    | some _ => none
  | .serve t fault =>
    match s.tasks t with
    | some (.asked request) => some (s.serve cfg t request fault)
    | _ => none
  | .resume t =>
    match s.tasks t with
    | some (.answered request answer _) => some (s.resume t request answer)
    | _ => none
  | .maintain disk => some { s with disk := disk }

end State

def Keeps (s : State) : Event → Prop
  | .maintain disk => ∀ hash id, (disk.slots hash).read id = (s.disk.slots hash).read id
  | _ => True

def Step (cfg : Config) (s : State) (e : Event) (s' : State) : Prop := Keeps s e ∧ s.exec cfg e = some s'

end Tasks

section Typed

variable {cfg : Config} {ty : Id → Nat} {d : Disk} {id : Id}

def Disk.Typed (ty : Id → Nat) (d : Disk) : Prop := ∀ hash id, hash ≠ ty id → (d.slots hash).read id = none

def Request.Typed (ty : Id → Nat) : Request → Prop
  | .get _ => True
  | .getOf hash id => hash = ty id
  | .apply batch => ∀ write ∈ batch, ∀ w, route write = some w → w.hash = ty w.id

theorem findSome_only {α β : Type} [DecidableEq α] {l : List α} {f : α → Option β} {a : α}
    (h : ∀ x ∈ l, x ≠ a → f x = none) : l.findSome? f = if a ∈ l then f a else none := by
  induction l with
  | nil => rfl
  | cons x l ih =>
    have ih := ih fun y hy => h y (List.mem_cons_of_mem _ hy)
    by_cases hx : x = a
    · subst hx
      rw [List.findSome?_cons, if_pos List.mem_cons_self]
      cases hf : f x with
      | some b => rfl
      | none =>
        change l.findSome? f = none
        rw [ih, hf, ite_self]
    · have hmem : a ∈ x :: l ↔ a ∈ l := by simp [Ne.symm hx]
      rw [List.findSome?_cons, h x List.mem_cons_self hx]
      change l.findSome? f = _
      rw [ih]
      simp only [hmem]

theorem read_eq_none {slot : Slot} (h : slot.read id = none) :
    slot.cache.get id = none ∧ fromPages slot id = none := by
  rw [Slot.read, Option.or_eq_none_iff] at h
  exact h

theorem Disk.Typed.readAny (h : d.Typed ty) : d.readAny cfg id = d.readOf cfg (ty id) id := by
  have hcache := findSome_only (l := cfg.hashes) (a := ty id) (f := fun hash => (d.slots hash).cache.get id)
    fun hash _ hne => (read_eq_none (h hash id hne)).1
  have hpages := findSome_only (l := cfg.hashes) (a := ty id) (f := fun hash => fromPages (d.slots hash) id)
    fun hash _ hne => (read_eq_none (h hash id hne)).2
  have hregistered : cfg.registered (ty id) = true ↔ ty id ∈ cfg.hashes := List.contains_iff_mem
  rw [Disk.readAny, hcache, hpages, Disk.readOf]
  by_cases hty : ty id ∈ cfg.hashes
  · rw [if_pos hty, if_pos hty, if_pos (hregistered.mpr hty)]
    rfl
  · rw [if_neg hty, if_neg hty, if_neg (mt hregistered.mp hty)]
    rfl

theorem read_commit {write : Write Storage.Bytes} {w : Routed} (hroute : route write = some w) (hash : Nat) (id : Id) :
    ((d.commit write).slots hash).read id =
      if hash = w.hash ∧ id = w.id then w.value else (d.slots hash).read id := by
  rw [Disk.commit, hroute]
  change (Function.update d.slots w.hash _ hash).read id = _
  by_cases hhash : hash = w.hash
  · subst hhash
    rw [Function.update_self, Slot.read, Routed.cacheWrite, Routed.deadWrite]
    by_cases hid : id = w.id
    · subst hid
      cases hvalue : w.value with
      | some bytes => simp
      | none => simp
    · have hne : w.id ≠ id := Ne.symm hid
      cases hvalue : w.value with
      | some bytes => simp [Slot.read, hid, hne]
      | none => simp [Slot.read, hid, hne]
  · rw [Function.update_of_ne hhash, if_neg (fun h => hhash h.1)]

theorem commit_of_unrouted {write : Write Storage.Bytes} (hroute : route write = none) : d.commit write = d := by
  rw [Disk.commit, hroute]

theorem Disk.Typed.commit (h : d.Typed ty) {write : Write Storage.Bytes}
    (hwrite : ∀ w, route write = some w → w.hash = ty w.id) : (d.commit write).Typed ty := by
  intro hash id hne
  cases hroute : route write with
  | none =>
    rw [commit_of_unrouted hroute]
    exact h hash id hne
  | some w =>
    rw [read_commit hroute, if_neg]
    · exact h hash id hne
    · rintro ⟨rfl, rfl⟩
      exact hne (hwrite w hroute)

theorem read_commit_typed {write : Write Storage.Bytes} (hroute : (route write).isSome)
    (hwrite : ∀ w, route write = some w → w.hash = ty w.id) :
    ((d.commit write).slots (ty id)).read id = (writtenBy write id).getD ((d.slots (ty id)).read id) := by
  obtain ⟨w, hw⟩ := Option.isSome_iff_exists.mp hroute
  have hhash := hwrite w hw
  rw [read_commit hw]
  have hvalue : writtenBy write id = if w.id = id then some w.value else none := by
    cases write with
    | put i bytes =>
      rw [route] at hw
      split at hw
      · cases hw
        rfl
      · cases hw
    | remove hash i =>
      cases hw
      rfl
    | expect hash i value => cases hw
  by_cases hid : w.id = id
  · subst hid
    rw [hvalue, if_pos rfl, if_pos ⟨hhash.symm, rfl⟩]
    rfl
  · rw [hvalue, if_neg hid, if_neg (fun h => hid h.2.symm)]
    rfl

theorem writtenBy_of_guard {write : Write Storage.Bytes} (h : write.isGuard = true) (id : Id) : writtenBy write id = none := by
  cases write with
  | put i bytes => cases h
  | remove hash i => cases h
  | expect hash i value => rfl

theorem getD_or {α : Type} (a b : Option α) (c : α) : (a.or b).getD c = a.getD (b.getD c) := by
  cases a <;> rfl

theorem read_commits {batch : List (Write Storage.Bytes)} (h : d.Typed ty)
    (hroutes : ∀ write ∈ batch, ∀ w, route write = some w → w.hash = ty w.id)
    (hshort : ∀ write ∈ batch, write.isGuard = false → (route write).isSome) :
    ((batch.filter fun write => !write.isGuard).foldl Disk.commit d).Typed ty ∧
      ∀ id, (((batch.filter fun write => !write.isGuard).foldl Disk.commit d).slots (ty id)).read id =
        (written batch id).getD ((d.slots (ty id)).read id) := by
  induction batch generalizing d with
  | nil => exact ⟨h, fun _ => rfl⟩
  | cons write batch ih =>
    have hroutes' := fun x hx => hroutes x (List.mem_cons_of_mem _ hx)
    have hshort' := fun x hx => hshort x (List.mem_cons_of_mem _ hx)
    cases hguard : write.isGuard with
    | true =>
      obtain ⟨htyped, hread⟩ := ih h hroutes' hshort'
      have hfilter : ((write :: batch).filter fun write => !write.isGuard) =
          batch.filter fun write => !write.isGuard := List.filter_cons_of_neg (by simp [hguard])
      rw [hfilter]
      refine ⟨htyped, fun id => ?_⟩
      rw [hread, written, writtenBy_of_guard hguard, Option.or_none]
    | false =>
      have hwrite := hroutes write List.mem_cons_self
      obtain ⟨htyped, hread⟩ := ih (h.commit hwrite) hroutes' hshort'
      have hfilter : ((write :: batch).filter fun write => !write.isGuard) =
          write :: batch.filter fun write => !write.isGuard := List.filter_cons_of_pos (by simp [hguard])
      rw [hfilter]
      refine ⟨htyped, fun id => ?_⟩
      rw [List.foldl_cons, hread, written, getD_or,
        read_commit_typed (hshort write List.mem_cons_self hguard) hwrite]

theorem route_of_routeOf {write : Write Storage.Bytes} {hash : Nat} (h : routeOf write = .ok hash)
    (hguard : write.isGuard = false) : ∃ w, route write = some w ∧ w.hash = hash ∧
      ∀ id, (writtenBy write id).isSome → w.id = id := by
  cases write with
  | put i bytes =>
    have hhash : structHashOf bytes = .ok hash := h
    refine ⟨⟨hash, i, some bytes⟩, by rw [route, hhash], rfl, fun id hid => ?_⟩
    by_contra hne
    rw [writtenBy, if_neg hne] at hid
    cases hid
  | remove hash' i =>
    cases h
    refine ⟨⟨hash, i, none⟩, rfl, rfl, fun id hid => ?_⟩
    by_contra hne
    rw [writtenBy, if_neg hne] at hid
    cases hid
  | expect hash' i value => cases hguard

theorem mem_of_written {batch : List (Write Storage.Bytes)} (h : (written batch id).isSome) :
    ∃ write ∈ batch, (writtenBy write id).isSome := by
  induction batch with
  | nil => cases h
  | cons write batch ih =>
    cases hrest : written batch id with
    | some value =>
      obtain ⟨x, hx, hid⟩ := ih (by rw [hrest]; rfl)
      exact ⟨x, List.mem_cons_of_mem _ hx, hid⟩
    | none =>
      rw [written, hrest, Option.none_or] at h
      exact ⟨write, List.mem_cons_self, h⟩

theorem Disk.Typed.applyInner (h : d.Typed ty) {batch : List (Write Storage.Bytes)} {d' : Disk}
    (hbatch : (Request.apply batch).Typed ty) (happly : d.applyInner cfg batch = .ok d') :
    d'.Typed ty ∧ ∀ id, d'.readOf cfg (ty id) id = (written batch id).getD (d.readOf cfg (ty id) id) := by
  obtain ⟨_, hroute, hrest⟩ := bind_eq_ok.mp happly
  obtain ⟨_, _, hd'⟩ := bind_eq_ok.mp hrest
  cases hd'
  have hrouted := routed_of_routeBatch hroute
  obtain ⟨htyped, hread⟩ := read_commits h hbatch fun write hwrite hguard => by
    obtain ⟨hash, -, hhash⟩ := hrouted write hwrite
    obtain ⟨w, hw, -⟩ := route_of_routeOf hhash hguard
    rw [hw]
    rfl
  refine ⟨htyped, fun id => ?_⟩
  by_cases hty : cfg.registered (ty id) = true
  · simp only [Disk.readOf, if_pos hty]
    exact hread id
  · -- A write to an id of an unregistered type would not have been routed.
    have hnone : written batch id = none := by
      by_contra hsome
      obtain ⟨write, hwrite, hid⟩ := mem_of_written (Option.isSome_iff_ne_none.mpr hsome)
      obtain ⟨hash, hregistered, hhash⟩ := hrouted write hwrite
      have hguard : write.isGuard = false := by
        by_contra hguard
        rw [writtenBy_of_guard (by simpa using hguard)] at hid
        cases hid
      obtain ⟨w, hw, rfl, hwid⟩ := route_of_routeOf hhash hguard
      have hwhash := hbatch write hwrite w hw
      rw [hwid id hid] at hwhash
      exact hty (List.contains_iff_mem.mpr (hwhash ▸ hregistered))
    simp only [Disk.readOf, if_neg hty, hnone]
    rfl

end Typed

section Cache

variable {s : ShardStore} {id id' : Id} {value x : Option Storage.Bytes}

def ShardStore.Fits (s : ShardStore) : Prop := s.budget = 0 → s.cache = []

theorem ShardStore.Fits.memoise (h : s.Fits) : (s.memoise id value).Fits := by
  rw [ShardStore.memoise]
  by_cases hbudget : s.budget = 0
  · rw [if_pos hbudget]
    exact h
  · rw [if_neg hbudget]
    split
    · exact fun h0 => absurd h0 hbudget
    · exact fun h0 => absurd h0 hbudget

theorem get_memoise (h : s.Fits) (hget : (s.memoise id value).cache.get id' = some x) :
    (id = id' ∧ x = value) ∨ (id ≠ id' ∧ s.cache.get id' = some x) := by
  rw [ShardStore.memoise] at hget
  by_cases hbudget : s.budget = 0
  · rw [if_pos hbudget, h hbudget] at hget
    cases hget
  · rw [if_neg hbudget] at hget
    split at hget
    · cases hget
    · change (s.cache.put id value).get id' = some x at hget
      rw [Table.get_put] at hget
      by_cases hid : id = id'
      · rw [if_pos hid, Option.some.injEq] at hget
        exact .inl ⟨hid, hget.symm⟩
      · rw [if_neg hid] at hget
        exact .inr ⟨hid, hget⟩

theorem adoptWrite_spec (h : s.Fits) (write : Write Storage.Bytes) :
    (s.adoptWrite write).Fits ∧ ∀ id x, (s.adoptWrite write).cache.get id = some x →
      writtenBy write id = some x ∨ (writtenBy write id = none ∧ s.cache.get id = some x) := by
  cases write with
  | put i bytes =>
    refine ⟨h.memoise, fun id x hget => ?_⟩
    rcases get_memoise h hget with ⟨rfl, rfl⟩ | ⟨hne, hget⟩
    · exact .inl (if_pos rfl)
    · exact .inr ⟨if_neg hne, hget⟩
  | remove hash i =>
    refine ⟨h.memoise, fun id x hget => ?_⟩
    rcases get_memoise h hget with ⟨rfl, rfl⟩ | ⟨hne, hget⟩
    · exact .inl (if_pos rfl)
    · exact .inr ⟨if_neg hne, hget⟩
  | expect hash i value => exact ⟨h, fun id x hget => .inr ⟨rfl, hget⟩⟩

theorem adopt_spec (h : s.Fits) (batch : List (Write Storage.Bytes)) :
    (s.adopt batch).Fits ∧ ∀ id x, (s.adopt batch).cache.get id = some x →
      written batch id = some x ∨ (written batch id = none ∧ s.cache.get id = some x) := by
  induction batch generalizing s with
  | nil => exact ⟨h, fun id x hget => .inr ⟨rfl, hget⟩⟩
  | cons write batch ih =>
    obtain ⟨hfits, hwrite⟩ := adoptWrite_spec h write
    obtain ⟨hfits', hbatch⟩ := ih hfits
    refine ⟨hfits', fun id x hget => ?_⟩
    rcases hbatch id x hget with hsome | ⟨hnone, hget⟩
    · exact .inl (by rw [written, hsome]; rfl)
    · rw [written, hnone, Option.none_or]
      exact hwrite id x hget

end Cache

section Coherence

variable {cfg : Config} {ty : Id → Nat} {s s' : State} {t : Nat} {request : Request} {answer : Answer}

def remembered : Request → Option Storage.Bytes → Id → Option (Option Storage.Bytes)
  | .get i, value, id => if i = id then some value else none
  | .getOf _ i, value, id => if i = id then some value else none
  | .apply batch, _, id => written batch id

theorem remember_spec {store : ShardStore} (h : store.Fits) (request : Request) (value : Option Storage.Bytes) :
    (State.remember store request (.ok value)).Fits ∧
      ∀ id x, (State.remember store request (.ok value)).cache.get id = some x →
        remembered request value id = some x ∨
          (remembered request value id = none ∧ store.cache.get id = some x) := by
  cases request with
  | get i =>
    refine ⟨h.memoise, fun id x hget => ?_⟩
    rcases get_memoise h hget with ⟨rfl, rfl⟩ | ⟨hne, hget⟩
    · exact .inl (if_pos rfl)
    · exact .inr ⟨if_neg hne, hget⟩
  | getOf hash i =>
    refine ⟨h.memoise, fun id x hget => ?_⟩
    rcases get_memoise h hget with ⟨rfl, rfl⟩ | ⟨hne, hget⟩
    · exact .inl (if_pos rfl)
    · exact .inr ⟨if_neg hne, hget⟩
  | apply batch => exact adopt_spec h batch

-- An entry of the cache is what the disk reads, unless the last write of its id is
-- answered and has not resumed. So is an answer that no write of the id has followed.
structure Coherent (cfg : Config) (ty : Id → Nat) (s : State) : Prop where
  typed : s.disk.Typed ty
  fits : s.store.Fits
  asked : ∀ t request, s.tasks t = some (.asked request) → request.Typed ty
  numbered : ∀ t request answer n, s.tasks t = some (.answered request answer n) → 0 < n ∧ n ≤ s.served
  written : ∀ id, s.lastWrite id ≤ s.served
  owner : ∀ t request answer n id, s.tasks t = some (.answered request answer n) → s.lastWrite id = n →
    ∃ value, answer = .ok value ∧ (remembered request value id).isSome
  known : ∀ t request value n id x, s.tasks t = some (.answered request (.ok value) n) →
    remembered request value id = some x → s.lastWrite id ≤ n → x = s.disk.readOf cfg (ty id) id
  cached : ∀ id x, s.store.cache.get id = some x → x = s.disk.readOf cfg (ty id) id ∨
    ∃ t request answer, s.tasks t = some (.answered request answer (s.lastWrite id))

theorem coherent_new {disk : Disk} (h : disk.Typed ty) (budget : Nat) :
    Coherent cfg ty (.new disk budget) :=
  ⟨h, fun _ => rfl, nofun, nofun, fun _ => le_rfl, nofun, nofun, nofun⟩

theorem Coherent.issue (h : Coherent cfg ty s) (hfree : s.tasks t = none) (hrequest : request.Typed ty) :
    Coherent cfg ty (s.issue t request) := by
  rw [State.issue]
  cases hcached : s.cached request with
  | some hit => exact ⟨h.typed, h.fits, h.asked, h.numbered, h.written, h.owner, h.known, h.cached⟩
  | none =>
    -- The new request takes no place of another.
    have hold : ∀ t' r a n, Function.update s.tasks t (some (.asked request)) t' = some (.answered r a n) ↔
        s.tasks t' = some (.answered r a n) := by
      intro t' r a n
      by_cases ht : t' = t
      · rw [ht, Function.update_self, hfree]
        exact ⟨nofun, nofun⟩
      · rw [Function.update_of_ne ht]
    refine ⟨h.typed, h.fits, fun t' r hr => ?_, fun t' r a n hr => h.numbered t' r a n ((hold ..).mp hr),
      h.written, fun t' r a n id hr => h.owner t' r a n id ((hold ..).mp hr),
      fun t' r v n id x hr => h.known t' r v n id x ((hold ..).mp hr), fun id x hx => ?_⟩
    · change Function.update s.tasks t (some (.asked request)) t' = some (.asked r) at hr
      by_cases ht : t' = t
      · rw [ht, Function.update_self, Option.some.injEq, Flight.asked.injEq] at hr
        exact hr ▸ hrequest
      · rw [Function.update_of_ne ht] at hr
        exact h.asked t' r hr
    · rcases h.cached id x hx with hx | ⟨t', r, a, hr⟩
      · exact .inl hx
      · exact .inr ⟨t', r, a, (hold ..).mpr hr⟩

theorem Coherent.answered (h : Coherent cfg ty s) (hask : s.tasks t = some (.asked request)) {disk : Disk}
    (htyped : disk.Typed ty)
    (hdisk : ∀ id, disk.readOf cfg (ty id) id = (changed request answer id).getD (s.disk.readOf cfg (ty id) id))
    (hanswer : ∀ value, answer = .ok value → ∀ id x, remembered request value id = some x →
      x = disk.readOf cfg (ty id) id)
    (hchanged : ∀ id, (changed request answer id).isSome →
      ∃ value, answer = .ok value ∧ (remembered request value id).isSome) :
    Coherent cfg ty (s.answered t request answer disk) := by
  have hlast : ∀ id, (s.answered t request answer disk).lastWrite id =
      if (changed request answer id).isSome then s.served + 1 else s.lastWrite id := fun _ => rfl
  have hcases : ∀ t' r a n, (s.answered t request answer disk).tasks t' = some (.answered r a n) →
      (t' = t ∧ r = request ∧ a = answer ∧ n = s.served + 1) ∨ s.tasks t' = some (.answered r a n) := by
    intro t' r a n hr
    change Function.update s.tasks t _ t' = _ at hr
    by_cases ht : t' = t
    · rw [ht, Function.update_self, Option.some.injEq, Flight.answered.injEq] at hr
      exact .inl ⟨ht, hr.1.symm, hr.2.1.symm, hr.2.2.symm⟩
    · rw [Function.update_of_ne ht] at hr
      exact .inr hr
  have hkept : ∀ t' r a n, s.tasks t' = some (.answered r a n) →
      (s.answered t request answer disk).tasks t' = some (.answered r a n) := by
    intro t' r a n hr
    have ht : t' ≠ t := by
      rintro rfl
      rw [hask] at hr
      cases hr
    exact (Function.update_of_ne ht ..).trans hr
  -- Nothing answered before is as recent as this answer.
  have hstill : ∀ id n, n ≤ s.served → (s.answered t request answer disk).lastWrite id ≤ n →
      changed request answer id = none ∧ s.lastWrite id ≤ n := by
    intro id n hn hle
    rw [hlast] at hle
    cases hchange : changed request answer id with
    | some x =>
      rw [hchange, Option.isSome_some, if_pos rfl] at hle
      omega
    | none =>
      rw [hchange, Option.isSome_none, if_neg Bool.false_ne_true] at hle
      exact ⟨rfl, hle⟩
  refine ⟨htyped, h.fits, fun t' r hr => ?_, fun t' r a n hr => ?_, fun id => ?_, fun t' r a n id hr hn => ?_,
    fun t' r v n id x hr hx hle => ?_, fun id x hx => ?_⟩
  · change Function.update s.tasks t _ t' = _ at hr
    by_cases ht : t' = t
    · rw [ht, Function.update_self] at hr
      cases hr
    · rw [Function.update_of_ne ht] at hr
      exact h.asked t' r hr
  · rcases hcases t' r a n hr with ⟨-, -, -, rfl⟩ | hr
    · exact ⟨Nat.succ_pos _, le_rfl⟩
    · exact ⟨(h.numbered t' r a n hr).1, (h.numbered t' r a n hr).2.trans (Nat.le_succ _)⟩
  · rw [hlast]
    split
    · exact le_rfl
    · exact (h.written id).trans (Nat.le_succ _)
  · rcases hcases t' r a n hr with ⟨-, rfl, rfl, rfl⟩ | hr
    · refine hchanged id ?_
      by_contra hnone
      rw [hlast, if_neg hnone] at hn
      have := h.written id
      omega
    · obtain ⟨-, hle⟩ := hstill id n (h.numbered t' r a n hr).2 hn.le
      refine h.owner t' r a n id hr ?_
      rw [hlast] at hn
      split at hn
      · have := (h.numbered t' r a n hr).2
        omega
      · exact hn
  · rcases hcases t' r _ n hr with ⟨-, rfl, hv, rfl⟩ | hr
    · exact hanswer v hv.symm id x hx
    · obtain ⟨hnone, hle⟩ := hstill id n (h.numbered t' r _ n hr).2 hle
      change x = disk.readOf cfg (ty id) id
      rw [hdisk, hnone]
      exact h.known t' r v n id x hr hx hle
  · cases hchange : changed request answer id with
    | some y =>
      refine .inr ⟨t, request, answer, ?_⟩
      rw [hlast, hchange, Option.isSome_some, if_pos rfl]
      exact Function.update_self ..
    | none =>
      have hsame : (s.answered t request answer disk).lastWrite id = s.lastWrite id := by
        rw [hlast, hchange]
        rfl
      rcases h.cached id x hx with hx | ⟨t', r, a, hr⟩
      · refine .inl ?_
        change x = disk.readOf cfg (ty id) id
        rw [hdisk, hchange]
        exact hx
      · exact .inr ⟨t', r, a, hsame ▸ hkept t' r a _ hr⟩

theorem Coherent.serve (h : Coherent cfg ty s) (hask : s.tasks t = some (.asked request)) (fault : Bool) :
    Coherent cfg ty (s.serve cfg t request fault) := by
  have hrequest := h.asked t request hask
  have hfailed : ∀ e, Coherent cfg ty (s.answered t request (.error e) s.disk) := by
    intro e
    have hnone : ∀ id, changed request (.error e) id = none := by
      intro id
      cases request <;> rfl
    exact h.answered hask h.typed (fun id => by rw [hnone]; rfl) nofun fun id hid => by
      rw [hnone] at hid
      cases hid
  cases fault with
  | true => exact hfailed .io
  | false =>
    change Coherent cfg ty (s.answered t request (s.disk.serve cfg request).1 (s.disk.serve cfg request).2)
    cases request with
    | get i =>
      refine h.answered hask h.typed (fun _ => rfl) (fun value hvalue id x hx => ?_) nofun
      cases hvalue
      by_cases hid : i = id
      · rw [remembered, if_pos hid, Option.some.injEq] at hx
        rw [← hx, ← hid]
        exact h.typed.readAny
      · rw [remembered, if_neg hid] at hx
        cases hx
    | getOf hash i =>
      refine h.answered hask h.typed (fun _ => rfl) (fun value hvalue id x hx => ?_) nofun
      cases hvalue
      by_cases hid : i = id
      · have hhash : hash = ty i := hrequest
        rw [remembered, if_pos hid, Option.some.injEq] at hx
        rw [← hx, ← hid, hhash]
        rfl
      · rw [remembered, if_neg hid] at hx
        cases hx
    | apply batch =>
      cases happly : s.disk.applyInner cfg batch with
      | error e =>
        have hserve : s.disk.serve cfg (.apply batch) = (.error e, s.disk) := by
          rw [Disk.serve, happly]
        rw [hserve]
        exact hfailed e
      | ok disk =>
        have hserve : s.disk.serve cfg (.apply batch) = (.ok none, disk) := by
          rw [Disk.serve, happly]
        obtain ⟨htyped, hread⟩ := h.typed.applyInner hrequest happly
        rw [hserve]
        refine h.answered hask htyped hread (fun value _ id x hx => ?_) fun id hid => ⟨none, rfl, hid⟩
        have hx : Shard.written batch id = some x := hx
        rw [hread, hx]
        rfl

-- Where a task resumes whose answer a later write of the id has followed, the
-- last such write has not resumed.
def InTurn (s : State) (t : Nat) : Prop :=
  ∀ request value n id, s.tasks t = some (.answered request (.ok value) n) →
    (remembered request value id).isSome → n < s.lastWrite id →
      ∃ t' request' answer', s.tasks t' = some (.answered request' answer' (s.lastWrite id))

theorem Coherent.resume (h : Coherent cfg ty s) {n : Nat}
    (htask : s.tasks t = some (.answered request answer n)) (hturn : InTurn s t) :
    Coherent cfg ty (s.resume t request answer) := by
  have hold : ∀ t' f, (s.resume t request answer).tasks t' = some f → s.tasks t' = some f := by
    intro t' f hf
    change Function.update s.tasks t none t' = some f at hf
    by_cases ht : t' = t
    · rw [ht, Function.update_self] at hf
      cases hf
    · rwa [Function.update_of_ne ht] at hf
  have hkept : ∀ t' f, t' ≠ t → s.tasks t' = some f → (s.resume t request answer).tasks t' = some f :=
    fun t' f ht hf => (Function.update_of_ne ht ..).trans hf
  -- An entry that waits for a write still does, unless that write resumes here.
  have hwaits : ∀ id x, s.store.cache.get id = some x →
      (∀ value, answer = .ok value → remembered request value id = none) →
      x = s.disk.readOf cfg (ty id) id ∨
        ∃ t' r a, (s.resume t request answer).tasks t' = some (.answered r a (s.lastWrite id)) := by
    intro id x hx hnone
    rcases h.cached id x hx with hx | ⟨t', r, a, hr⟩
    · exact .inl hx
    · refine .inr ⟨t', r, a, hkept t' _ ?_ hr⟩
      rintro rfl
      rw [htask, Option.some.injEq, Flight.answered.injEq] at hr
      obtain ⟨value, hvalue, hsome⟩ := h.owner t' request answer n id htask hr.2.2.symm
      rw [hnone value hvalue] at hsome
      cases hsome
  have hrest : ∀ store : ShardStore, store.Fits → (∀ id x, store.cache.get id = some x →
      x = s.disk.readOf cfg (ty id) id ∨
        ∃ t' r a, (s.resume t request answer).tasks t' = some (.answered r a (s.lastWrite id))) →
      Coherent cfg ty { s.resume t request answer with store := store } := fun store hfits hcached =>
    ⟨h.typed, hfits, fun t' r hr => h.asked t' r (hold t' _ hr),
      fun t' r a m hr => h.numbered t' r a m (hold t' _ hr), h.written,
      fun t' r a m id hr => h.owner t' r a m id (hold t' _ hr),
      fun t' r v m id x hr => h.known t' r v m id x (hold t' _ hr), hcached⟩
  cases answer with
  | error e =>
    have hstore : State.remember s.store request (.error e) = s.store := by cases request <;> rfl
    have hfits : (State.remember s.store request (.error e)).Fits := by rw [hstore]; exact h.fits
    refine hrest _ hfits fun id x hx => ?_
    rw [hstore] at hx
    exact hwaits id x hx nofun
  | ok value =>
    obtain ⟨hfits, hget⟩ := remember_spec h.fits request value
    refine hrest _ hfits fun id x hx => ?_
    rcases hget id x hx with hsome | ⟨hnone, hx⟩
    · by_cases hlate : n < s.lastWrite id
      · obtain ⟨t', r, a, hr⟩ := hturn request value n id htask (by rw [hsome]; rfl) hlate
        refine .inr ⟨t', r, a, hkept t' _ ?_ hr⟩
        rintro rfl
        rw [htask, Option.some.injEq, Flight.answered.injEq] at hr
        omega
      · exact .inl (h.known t request value n id x htask hsome (not_lt.mp hlate))
    · refine hwaits id x hx fun value' hvalue' => ?_
      cases hvalue'
      exact hnone

theorem Coherent.maintain (h : Coherent cfg ty s) {disk : Disk}
    (hread : ∀ hash id, (disk.slots hash).read id = (s.disk.slots hash).read id) :
    Coherent cfg ty { s with disk := disk } := by
  have hsame : ∀ id, disk.readOf cfg (ty id) id = s.disk.readOf cfg (ty id) id := by
    intro id
    rw [Disk.readOf, hread, Disk.readOf]
  refine ⟨fun hash id hne => (hread hash id).trans (h.typed hash id hne), h.fits, h.asked, h.numbered, h.written,
    h.owner, fun t' r v n id x hr hx hle => ?_, fun id x hx => ?_⟩
  · exact (h.known t' r v n id x hr hx hle).trans (hsame id).symm
  · rcases h.cached id x hx with hx | hr
    · exact .inl (hx.trans (hsame id).symm)
    · exact .inr hr

end Coherence

section Runs

variable {cfg : Config} {ty : Id → Nat} {s s' : State}

def Orderly (ty : Id → Nat) (s : State) : Event → Prop
  | .issue _ request => request.Typed ty
  | .resume t => InTurn s t
  | _ => True

theorem Coherent.step (h : Coherent cfg ty s) {e : Event} (hok : Orderly ty s e) (hstep : Step cfg s e s') :
    Coherent cfg ty s' := by
  obtain ⟨hkeeps, hexec⟩ := hstep
  cases e with
  | issue t request =>
    rw [State.exec] at hexec
    cases htask : s.tasks t with
    | none =>
      rw [htask] at hexec
      cases hexec
      exact h.issue htask hok
    | some flight =>
      rw [htask] at hexec
      cases hexec
  | serve t fault =>
    rw [State.exec] at hexec
    rcases htask : s.tasks t with _ | request | ⟨request, answer, n⟩
    · rw [htask] at hexec
      cases hexec
    · rw [htask] at hexec
      cases hexec
      exact h.serve htask fault
    · rw [htask] at hexec
      cases hexec
  | resume t =>
    rw [State.exec] at hexec
    rcases htask : s.tasks t with _ | request | ⟨request, answer, n⟩
    · rw [htask] at hexec
      cases hexec
    · rw [htask] at hexec
      cases hexec
    · rw [htask] at hexec
      cases hexec
      exact h.resume htask hok
  | maintain disk =>
    cases hexec
    exact h.maintain hkeeps

def readAlone (s : State) (t : Nat) (request : Request) : List Event :=
  if (s.cached request).isSome then [.issue t request] else [.issue t request, .serve t false, .resume t]

def Request.IsRead : Request → Prop
  | .apply _ => False
  | _ => True

theorem returned_readAlone {t : Nat} {request : Request} (hread : request.IsRead) (hidle : s.tasks t = none)
    (hhit : ∀ hit, s.cached request = some hit → (s.disk.serve cfg request).1 = .ok hit) :
    ∃ s', execAll (State.exec cfg) (fun _ _ => true) s (readAlone s t request) = some s' ∧
      s'.returned = s.returned ++ [(t, request, (s.disk.serve cfg request).1)] ∧ s'.disk = s.disk := by
  have hsame : (s.disk.serve cfg request).2 = s.disk := by
    cases request with
    | get id => rfl
    | getOf hash id => rfl
    | apply batch => exact hread.elim
  cases hcached : s.cached request with
  | some hit =>
    have hissue : s.exec cfg (.issue t request) =
        some { s with returned := s.returned ++ [(t, request, .ok hit)] } := by
      rw [State.exec, hidle, State.issue, hcached]
    refine ⟨{ s with returned := s.returned ++ [(t, request, .ok hit)] }, ?_, ?_, rfl⟩
    · rw [readAlone, hcached, Option.isSome_some, if_pos rfl, execAll, List.foldlM_cons, if_pos rfl, hissue]
      rfl
    · rw [hhit hit hcached]
  | none =>
    let asked : State := { s with tasks := Function.update s.tasks t (some (.asked request)) }
    have hissue : s.exec cfg (.issue t request) = some asked := by
      rw [State.exec, hidle, State.issue, hcached]
    let answered : State := asked.serve cfg t request false
    have hserve : asked.exec cfg (.serve t false) = some answered := by
      have htask : asked.tasks t = some (.asked request) := Function.update_self ..
      rw [State.exec, htask]
    have hresume : answered.exec cfg (.resume t) =
        some (answered.resume t request (s.disk.serve cfg request).1) := by
      have htask : answered.tasks t = some (.answered request (s.disk.serve cfg request).1 (s.served + 1)) :=
        Function.update_self ..
      rw [State.exec, htask]
    refine ⟨answered.resume t request (s.disk.serve cfg request).1, ?_, rfl, hsame⟩
    rw [readAlone, hcached, Option.isSome_none, if_neg Bool.false_ne_true, execAll, List.foldlM_cons,
      if_pos rfl, hissue, Option.bind_eq_bind, Option.bind_some, List.foldlM_cons, if_pos rfl, hserve,
      Option.bind_eq_bind, Option.bind_some, List.foldlM_cons, if_pos rfl, hresume]
    rfl

-- With no request in flight, a read returns what the disk actor would answer.
theorem reads_disk {disk : Disk} {budget : Nat} (hdisk : disk.Typed ty)
    (h : Leads (Step cfg) (Orderly ty) (State.new disk budget) s) (hidle : ∀ t, s.tasks t = none)
    {request : Request} (hread : request.IsRead) (hrequest : request.Typed ty) (t : Nat) :
    ∃ s', execAll (State.exec cfg) (fun _ _ => true) s (readAlone s t request) = some s' ∧
      s'.returned = s.returned ++ [(t, request, (s.disk.serve cfg request).1)] ∧ s'.disk = s.disk := by
  have hcoherent : Coherent cfg ty s :=
    h.invariant (coherent_new hdisk budget) fun _ _ _ hs hok hstep => hs.step hok hstep
  refine returned_readAlone hread (hidle t) fun hit hhit => ?_
  have hvalue : ∀ id, s.store.cache.get id = some hit → hit = s.disk.readOf cfg (ty id) id := by
    intro id hget
    rcases hcoherent.cached id hit hget with hx | ⟨t', r, a, hr⟩
    · exact hx
    · rw [hidle t'] at hr
      cases hr
  cases request with
  | get id => rw [hvalue id hhit, Disk.serve, hcoherent.typed.readAny]
  | getOf hash id =>
    have hhash : hash = ty id := hrequest
    rw [hvalue id hhit, Disk.serve, hhash]
  | apply batch => exact hread.elim

def sampleConfig : Config := ⟨[(1, false), (2, false)], by decide, by decide, fun _ _ => 0, false⟩

def sampleId : Id := ⟨5, 1, 0⟩

def record (hash : UInt8) (body : Storage.Bytes) : Storage.Bytes := [hash, 0, 0, 0, 0, 0, 0, 0] ++ body

def emptySlot : Slot := ⟨[], ∅, fun _ => none⟩

def emptyDisk : Disk := ⟨fun _ => emptySlot⟩

def ofTasks (_ : State) : Event → Bool
  | .maintain _ => false
  | _ => true

theorem step_ofTasks {e : Event} (h : ofTasks s e = true) (hexec : s.exec cfg e = some s') : Step cfg s e s' := by
  refine ⟨?_, hexec⟩
  cases e with
  | issue t request => trivial
  | serve t fault => trivial
  | resume t => trivial
  | maintain disk => cases h

def onTask (t : Nat) (request : Request) : List Event := [.issue t request, .serve t false, .resume t]

theorem reads_disk_applied :
    ∃ s s' : State, Leads (Step sampleConfig) (Orderly fun _ => 1) (State.new emptyDisk 100) s ∧
      s.cached (.getOf 1 sampleId) = some (some (record 1 [7])) ∧
      execAll (State.exec sampleConfig) (fun _ _ => true) s (readAlone s 0 (.getOf 1 sampleId)) = some s' ∧
      s'.returned = s.returned ++ [(0, .getOf 1 sampleId, (s.disk.serve sampleConfig (.getOf 1 sampleId)).1)] := by
  let batch : Request := .apply [.put sampleId (record 1 [7])]
  have htyped : batch.Typed fun _ => 1 := by
    intro write hwrite w hw
    rw [List.mem_singleton.mp hwrite] at hw
    cases hw
    rfl
  let asked : State := (State.new emptyDisk 100).issue 0 batch
  let answered : State := asked.serve sampleConfig 0 batch false
  let s : State := answered.resume 0 batch (.ok none)
  -- The only answer is the first one.
  have hturn : InTurn answered 0 := by
    intro request value n id htask _ hlate
    cases htask
    have hlast : answered.lastWrite id ≤ 1 := by
      change (if _ then 1 else 0) ≤ 1
      split <;> omega
    omega
  have hrun : Leads (Step sampleConfig) (Orderly fun _ => 1) (State.new emptyDisk 100) s :=
    .step (.step (.step .start htyped (l := .issue 0 batch) ⟨trivial, rfl⟩) trivial (l := .serve 0 false)
      ⟨trivial, rfl⟩) hturn (l := .resume 0) ⟨trivial, rfl⟩
  have hidle : ∀ t, s.tasks t = none := by
    intro t
    cases t with
    | zero => rfl
    | succ t => rfl
  have hread : (Request.getOf 1 sampleId).IsRead := trivial
  obtain ⟨s', hexec, hreturned, -⟩ := reads_disk (fun _ _ _ => rfl) hrun hidle hread rfl 0
  exact ⟨s, s', hrun, by decide +kernel, hexec, hreturned⟩

def lastReturned (s : State) (request : Request) : Option (Option Answer) :=
  (execAll (State.exec sampleConfig) (fun _ _ => true) s (readAlone s 0 request)).map fun s' =>
    s'.returned.getLast?.map fun entry => entry.2.2

-- The cache mixes types: a read of one type is answered with a record of another. And
-- it mixes times: a read that found nothing resumes after a later write, and the record
-- is unknown from then on.
theorem reads_other :
    (∃ s, Leads (Step sampleConfig) (fun _ _ => True) (State.new emptyDisk 100) s ∧ (∀ t, s.tasks t = none) ∧
      (s.disk.serve sampleConfig (.getOf 1 sampleId)).1 = .ok (some (record 1 [7])) ∧
      lastReturned s (.getOf 1 sampleId) = some (some (.ok (some (record 2 [8]))))) ∧
    ∃ s, Leads (Step sampleConfig) (fun _ _ => True) (State.new emptyDisk 100) s ∧ (∀ t, s.tasks t = none) ∧
      (s.disk.serve sampleConfig (.getOf 1 sampleId)).1 = .ok (some (record 1 [7])) ∧
      lastReturned s (.getOf 1 sampleId) = some (some (.ok none)) := by
  have hleads : ∀ events s, execAll (State.exec sampleConfig) ofTasks (.new emptyDisk 100) events = some s →
      Leads (Step sampleConfig) (fun _ _ => True) (State.new emptyDisk 100) s := fun events s hs =>
    Leads.execAll (fun _ _ _ hl hexec => step_ofTasks hl hexec) (fun _ _ _ => trivial) .start hs
  refine ⟨?_, ?_⟩
  · obtain ⟨s, hs⟩ : ∃ s, execAll (State.exec sampleConfig) ofTasks (.new emptyDisk 100)
        (onTask 0 (.apply [.put sampleId (record 1 [7]), .put sampleId (record 2 [8])])) = some s := ⟨_, rfl⟩
    refine ⟨s, hleads _ s hs, ?_⟩
    cases hs
    refine ⟨fun t => ?_, by decide +kernel, by decide +kernel⟩
    cases t with
    | zero => rfl
    | succ t => rfl
  · obtain ⟨s, hs⟩ : ∃ s, execAll (State.exec sampleConfig) ofTasks (.new emptyDisk 100)
        ([.issue 0 (.getOf 1 sampleId), .serve 0 false] ++
          onTask 1 (.apply [.put sampleId (record 1 [7])]) ++ [.resume 0]) = some s := ⟨_, rfl⟩
    refine ⟨s, hleads _ s hs, ?_⟩
    cases hs
    refine ⟨fun t => ?_, by decide +kernel, by decide +kernel⟩
    rcases t with _ | _ | t
    · rfl
    · rfl
    · rfl

end Runs

end WaveDb.Node.Shard
