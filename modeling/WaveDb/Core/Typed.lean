import WaveDb.Core.Overlay

-- A store that routes by type: one slot per struct hash, each with a cache over settled
-- pages.
namespace WaveDb.Core

open WaveDb.Lib

-- The struct hash at the head of a stored value, if the value has one.
class Headed (V : Type) where
  structHash : V → Option Nat

variable {V α β : Type}

structure TypeSlot (V : Type) where
  hash : Nat
  cache : Id → Option V
  -- Removed since the last settle: the page may still hold the bytes.
  dead : Id → Bool
  pages : Id → Option V

namespace TypeSlot

def readFromPages (slot : TypeSlot V) (id : Id) : Option V :=
  if slot.dead id then none else slot.pages id

def read (slot : TypeSlot V) (id : Id) : Option V := (slot.cache id).or (slot.readFromPages id)

def put (slot : TypeSlot V) (id : Id) (value : V) : TypeSlot V :=
  { slot with
    cache := Function.update slot.cache id (some value)
    dead := Function.update slot.dead id false }

def remove (slot : TypeSlot V) (id : Id) : TypeSlot V :=
  { slot with
    cache := Function.update slot.cache id none
    dead := Function.update slot.dead id true }

@[simp] theorem hash_put (slot : TypeSlot V) (id : Id) (value : V) :
    (slot.put id value).hash = slot.hash := rfl

@[simp] theorem hash_remove (slot : TypeSlot V) (id : Id) : (slot.remove id).hash = slot.hash := rfl

theorem read_put (slot : TypeSlot V) (id i : Id) (value : V) :
    (slot.put id value).read i = if id = i then some value else slot.read i := by
  rcases eq_or_ne id i with rfl | hne
  · simp [put, read]
  · simp [put, read, readFromPages, hne, Function.update_of_ne hne.symm]

theorem read_remove (slot : TypeSlot V) (id i : Id) :
    (slot.remove id).read i = if id = i then none else slot.read i := by
  rcases eq_or_ne id i with rfl | hne
  · simp [remove, read, readFromPages]
  · simp [remove, read, readFromPages, hne, Function.update_of_ne hne.symm]

theorem read_eq_none {slot : TypeSlot V} {id : Id} (h : slot.read id = none) :
    slot.cache id = none ∧ slot.readFromPages id = none := by
  simpa [read] using h

end TypeSlot

-- The slots in the order of their hashes, each hash once.
structure TypedStore (V : Type) where
  types : List (TypeSlot V)
  sorted : (types.map TypeSlot.hash).Pairwise (· < ·)

namespace TypedStore

def slotOf (s : TypedStore V) (hash : Nat) : Option (TypeSlot V) :=
  s.types.find? fun slot => slot.hash = hash

def registered (s : TypedStore V) (hash : Nat) : Prop := hash ∈ s.types.map TypeSlot.hash

instance (s : TypedStore V) (hash : Nat) : Decidable (s.registered hash) :=
  inferInstanceAs (Decidable (_ ∈ _))

def readOf (s : TypedStore V) (hash : Nat) (id : Id) : Option V :=
  (s.slotOf hash).bind fun slot => slot.read id

def readAny (s : TypedStore V) (id : Id) : Option V :=
  (s.types.findSome? fun slot => slot.cache id).or
    (s.types.findSome? fun slot => slot.readFromPages id)

def modifySlot (s : TypedStore V) (hash : Nat) (f : TypeSlot V → TypeSlot V)
    (hf : ∀ slot, (f slot).hash = slot.hash) : TypedStore V where
  types := s.types.map fun slot => if slot.hash = hash then f slot else slot
  sorted := by
    have hmap : (s.types.map fun slot => if slot.hash = hash then f slot else slot).map
        TypeSlot.hash = s.types.map TypeSlot.hash := by
      rw [List.map_map]
      refine List.map_congr_left fun slot _ => ?_
      simp only [Function.comp_apply]
      split
      · exact hf slot
      · rfl
    rw [hmap]
    exact s.sorted

def conflict [DecidableEq V] (s : TypedStore V) : List (Write V) → Option Id
  | [] => none
  | .expect hash id value :: batch =>
    if s.readOf hash id = value then s.conflict batch else some id
  | _ :: batch => s.conflict batch

-- The two reads of the view. Both go by the id alone.
def overlayGet (s : TypedStore V) (staged : List (Write V)) (id : Id) : Option V :=
  (pendingAt id staged).getD (s.readAny id)

def overlayGetOf (s : TypedStore V) (staged : List (Write V)) (hash : Nat) (id : Id) :
    Option V :=
  (pendingAt id staged).getD (s.readOf hash id)

section Slots

variable {s : TypedStore V} {hash : Nat} {id : Id}

theorem slotOf_hash {slot : TypeSlot V} (h : s.slotOf hash = some slot) : slot.hash = hash := by
  simpa using List.find?_some h

theorem slotOf_of_mem {slot : TypeSlot V} (h : slot ∈ s.types) :
    s.slotOf slot.hash = some slot := by
  have hsorted := s.sorted
  rw [List.pairwise_map] at hsorted
  obtain ⟨a, b, hab⟩ := List.append_of_mem h
  rw [hab, List.pairwise_append] at hsorted
  rw [slotOf, List.find?_eq_some_iff_append]
  refine ⟨by simp, a, b, hab, fun x hx => ?_⟩
  have hlt := hsorted.2.2 x hx slot List.mem_cons_self
  simpa using hlt.ne

theorem registered_iff : s.registered hash ↔ ∃ slot, s.slotOf hash = some slot := by
  constructor
  · intro h
    obtain ⟨slot, hmem, rfl⟩ := List.mem_map.mp h
    exact ⟨slot, slotOf_of_mem hmem⟩
  · rintro ⟨slot, h⟩
    exact List.mem_map.mpr ⟨slot, List.mem_of_find?_eq_some h, slotOf_hash h⟩

theorem slotOf_modifySlot (s : TypedStore V) (target hash : Nat) (f : TypeSlot V → TypeSlot V)
    (hf : ∀ slot, (f slot).hash = slot.hash) :
    (s.modifySlot target f hf).slotOf hash =
      (s.slotOf hash).map fun slot => if hash = target then f slot else slot := by
  rw [slotOf, modifySlot, List.find?_map]
  have hkeep : ((fun slot : TypeSlot V => decide (slot.hash = hash)) ∘
      fun slot => if slot.hash = target then f slot else slot) =
      fun slot => decide (slot.hash = hash) := by
    funext slot
    simp only [Function.comp_apply]
    split
    · rw [hf]
    · rfl
  rw [hkeep]
  change (s.slotOf hash).map _ = _
  cases hslot : s.slotOf hash with
  | none => rfl
  | some slot => simp [slotOf_hash hslot]

theorem registered_modifySlot (s : TypedStore V) (target hash : Nat) (f : TypeSlot V → TypeSlot V)
    (hf : ∀ slot, (f slot).hash = slot.hash) :
    (s.modifySlot target f hf).registered hash ↔ s.registered hash := by
  rw [registered_iff, registered_iff, slotOf_modifySlot]
  simp

end Slots

end TypedStore

variable [Headed V]

-- The hash a write goes by: a put's stands at the head of its bytes.
def Write.route : Write V → Option Nat
  | .put _ value => Headed.structHash value
  | .remove hash _ => some hash
  | .expect hash _ _ => some hash

namespace TypedStore

def routeBatch (s : TypedStore V) : List (Write V) → Except Error Unit
  | [] => .ok ()
  | x :: batch =>
    match x.route with
    | none => .error .wire
    | some hash => if s.registered hash then s.routeBatch batch else .error .backend

-- One write of a batch that `routeBatch` accepted.
def commitWrite (s : TypedStore V) : Write V → TypedStore V
  | .put id value =>
    match Headed.structHash value with
    | some hash => s.modifySlot hash (fun slot => slot.put id value) fun slot => slot.hash_put id value
    | none => s
  | .remove hash id => s.modifySlot hash (fun slot => slot.remove id) fun slot => slot.hash_remove id
  | .expect _ _ _ => s

def commitToCaches (s : TypedStore V) (batch : List (Write V)) : TypedStore V :=
  batch.foldl commitWrite s

def apply [DecidableEq V] (s : TypedStore V) (batch : List (Write V)) :
    Except Error (TypedStore V) := do
  s.routeBatch batch
  match s.conflict batch with
  | some id => .error (.conflict id)
  | none => return s.commitToCaches batch

end TypedStore

structure TypedWorld (V : Type) where
  store : TypedStore V
  clock : Nat → Nat
  last : Nat

namespace TypedWorld

def tick (w : TypedWorld V) : TypedWorld V := { w with clock := fun n => w.clock (n + 1) }

def handle [DecidableEq V] : (o : Op V) → TypedWorld V → Ans V o × TypedWorld V
  | .getOf hash id, w => (w.store.readOf hash id, w)
  | .apply batch, w =>
    match w.store.apply batch with
    | .ok store => (.ok (), { w with store })
    | .error e => (.error e, w)
  | .keyNanos, w => (w.clock 0, w.tick)
  | .mintInstant floor, w =>
    let minted := max (w.clock 0) (max (saturatingSucc floor) (saturatingSucc w.last))
    (minted, { w.tick with last := minted })

end TypedWorld

def Engine.runTyped [DecidableEq V] (p : Engine V α) (w : TypedWorld V) :
    Outcome Error α × TypedWorld V := p.run TypedWorld.handle w

-- Under `τ` each id has one type. A write goes to the slot of its id's.
def Write.Typed (τ : Id → Nat) (x : Write V) : Prop := x.route = some (τ x.id)

namespace TypedStore

variable {τ : Id → Nat}

omit [Headed V] in
def Keeps (s : TypedStore V) (τ : Id → Nat) : Prop :=
  ∀ hash id, hash ≠ τ id → s.readOf hash id = none

def Lands (s : TypedStore V) (τ : Id → Nat) (x : Write V) : Prop :=
  x.Typed τ ∧ s.registered (τ x.id)

theorem registered_commitWrite (s : TypedStore V) (x : Write V) (hash : Nat) :
    (s.commitWrite x).registered hash ↔ s.registered hash := by
  cases x with
  | put id value =>
    rw [commitWrite]
    split
    · exact registered_modifySlot _ _ _ _ _
    · rfl
  | remove target id =>
    rw [commitWrite]
    exact registered_modifySlot _ _ _ _ _
  | expect target id value => rfl

theorem lands_commitWrite {s : TypedStore V} (x y : Write V) :
    (s.commitWrite x).Lands τ y ↔ s.Lands τ y := by
  rw [Lands, Lands, registered_commitWrite]

omit [Headed V] in
theorem readOf_modifySlot {s : TypedStore V} {i : Id} {slot? : Option V}
    {f : TypeSlot V → TypeSlot V} {hf : ∀ slot, (f slot).hash = slot.hash}
    (hread : ∀ slot id, (f slot).read id = if i = id then slot? else slot.read id)
    (hreg : s.registered (τ i)) (hash : Nat) (id : Id) :
    (s.modifySlot (τ i) f hf).readOf hash id =
      if hash = τ id then (if i = id then some slot? else none).getD (s.readOf hash id)
      else s.readOf hash id := by
  rw [readOf, readOf, slotOf_modifySlot]
  by_cases hh : hash = τ i
  · subst hh
    obtain ⟨slot, hslot⟩ := registered_iff.mp hreg
    rw [hslot]
    simp only [if_true, Option.map_some, Option.bind_some, hread]
    rcases eq_or_ne i id with rfl | hne
    · simp
    · simp [hne]
  · rcases eq_or_ne i id with rfl | hne
    · simp [hh]
    · simp [hh, hne]

theorem readOf_commitWrite {s : TypedStore V} {x : Write V} (h : s.Lands τ x) (hash : Nat)
    (id : Id) : (s.commitWrite x).readOf hash id =
      if hash = τ id then (x.pendingAt id).getD (s.readOf hash id) else s.readOf hash id := by
  obtain ⟨htyped, hreg⟩ := h
  cases x with
  | expect target i value => exact (ite_self _).symm
  | put i value =>
    have hhead : Headed.structHash value = some (τ i) := htyped
    rw [commitWrite, hhead]
    exact readOf_modifySlot (fun slot id => slot.read_put i id value) hreg hash id
  | remove target i =>
    obtain rfl : target = τ i := Option.some.inj htyped
    rw [commitWrite]
    exact readOf_modifySlot (fun slot id => slot.read_remove i id) hreg hash id

@[simp] theorem commitToCaches_nil (s : TypedStore V) : s.commitToCaches [] = s := rfl

@[simp] theorem commitToCaches_cons (s : TypedStore V) (x : Write V) (batch : List (Write V)) :
    s.commitToCaches (x :: batch) = (s.commitWrite x).commitToCaches batch := rfl

theorem commitToCaches_append (s : TypedStore V) (a b : List (Write V)) :
    s.commitToCaches (a ++ b) = (s.commitToCaches a).commitToCaches b := List.foldl_append

theorem registered_commitToCaches (s : TypedStore V) (batch : List (Write V)) (hash : Nat) :
    (s.commitToCaches batch).registered hash ↔ s.registered hash := by
  induction batch generalizing s with
  | nil => rfl
  | cons x batch ih => rw [commitToCaches_cons, ih, registered_commitWrite]

theorem lands_commitToCaches {s : TypedStore V} (batch : List (Write V)) (x : Write V) :
    (s.commitToCaches batch).Lands τ x ↔ s.Lands τ x := by
  rw [Lands, Lands, registered_commitToCaches]

theorem readOf_commitToCaches {s : TypedStore V} {batch : List (Write V)}
    (h : ∀ x ∈ batch, s.Lands τ x) (hash : Nat) (id : Id) :
    (s.commitToCaches batch).readOf hash id =
      if hash = τ id then (pendingAt id batch).getD (s.readOf hash id) else s.readOf hash id := by
  induction batch generalizing s with
  | nil => simp [pendingAt]
  | cons x batch ih =>
    have hx := h x List.mem_cons_self
    have hrest : ∀ y ∈ batch, (s.commitWrite x).Lands τ y := fun y hy =>
      (lands_commitWrite x y).mpr (h y (List.mem_cons_of_mem _ hy))
    rw [commitToCaches_cons, ih hrest, readOf_commitWrite hx, pendingAt]
    split
    · cases pendingAt id batch <;> rfl
    · rfl

theorem Keeps.commitToCaches {s : TypedStore V} (hs : s.Keeps τ) {batch : List (Write V)}
    (h : ∀ x ∈ batch, s.Lands τ x) : (s.commitToCaches batch).Keeps τ := by
  intro hash id hne
  rw [readOf_commitToCaches h, if_neg hne]
  exact hs hash id hne

omit [Headed V] in
theorem Keeps.read_eq_none {s : TypedStore V} (hs : s.Keeps τ) {slot : TypeSlot V}
    (hmem : slot ∈ s.types) {id : Id} (hne : slot.hash ≠ τ id) : slot.read id = none := by
  have h := hs slot.hash id hne
  rwa [readOf, slotOf_of_mem hmem, Option.bind_some] at h

theorem findSome_eq_of_unique {A B : Type} {f : A → Option B} {l : List A} {a : A} (ha : a ∈ l)
    (h : ∀ x ∈ l, x ≠ a → f x = none) : l.findSome? f = f a := by
  cases hfa : f a with
  | none =>
    rw [List.findSome?_eq_none_iff]
    intro x hx
    by_cases hxa : x = a
    · rw [hxa, hfa]
    · exact h x hx hxa
  | some b =>
    have hsome : (l.findSome? f).isSome := List.findSome?_isSome_iff.mpr ⟨a, ha, by simp [hfa]⟩
    obtain ⟨x, hx⟩ := Option.isSome_iff_exists.mp hsome
    obtain ⟨y, hy, hfy⟩ := List.exists_of_findSome?_eq_some hx
    by_cases hya : y = a
    · rw [hx, ← hfy, hya, hfa]
    · rw [h y hy hya] at hfy
      cases hfy

omit [Headed V] in
theorem Keeps.readAny_eq {s : TypedStore V} (hs : s.Keeps τ) (id : Id) :
    s.readAny id = s.readOf (τ id) id := by
  rw [readAny, readOf]
  cases hslot : s.slotOf (τ id) with
  | none =>
    have hnone : ∀ slot ∈ s.types, slot.read id = none := fun slot hmem => by
      refine hs.read_eq_none hmem fun heq => ?_
      rw [← heq, slotOf_of_mem hmem] at hslot
      cases hslot
    have hcache : s.types.findSome? (fun slot => slot.cache id) = none :=
      List.findSome?_eq_none_iff.mpr fun slot hmem => (TypeSlot.read_eq_none (hnone slot hmem)).1
    have hpages : s.types.findSome? (fun slot => slot.readFromPages id) = none :=
      List.findSome?_eq_none_iff.mpr fun slot hmem => (TypeSlot.read_eq_none (hnone slot hmem)).2
    rw [hcache, hpages]
    rfl
  | some slot =>
    have hmem := List.mem_of_find?_eq_some hslot
    have hother : ∀ other ∈ s.types, other ≠ slot → other.read id = none := fun other ho hne => by
      refine hs.read_eq_none ho fun heq => hne ?_
      rw [← heq, slotOf_of_mem ho] at hslot
      exact Option.some.inj hslot
    rw [findSome_eq_of_unique hmem fun x hx hne => (TypeSlot.read_eq_none (hother x hx hne)).1,
      findSome_eq_of_unique hmem fun x hx hne => (TypeSlot.read_eq_none (hother x hx hne)).2]
    rfl

theorem overlayGetOf_eq {s : TypedStore V} {staged : List (Write V)}
    (h : ∀ x ∈ staged, s.Lands τ x) {hash : Nat} {id : Id}
    (hask : pendingAt id staged = none ∨ hash = τ id) :
    s.overlayGetOf staged hash id = (s.commitToCaches staged).readOf hash id := by
  rw [readOf_commitToCaches h, overlayGetOf]
  split
  · rfl
  · next hne => rw [hask.resolve_right hne, Option.getD_none]

theorem overlayGet_eq {s : TypedStore V} (hs : s.Keeps τ) {staged : List (Write V)}
    (h : ∀ x ∈ staged, s.Lands τ x) (id : Id) :
    s.overlayGet staged id = (s.commitToCaches staged).readAny id := by
  rw [(hs.commitToCaches h).readAny_eq, readOf_commitToCaches h, overlayGet, hs.readAny_eq, if_pos rfl]

theorem routeBatch_eq_ok {s : TypedStore V} {batch : List (Write V)} :
    s.routeBatch batch = .ok () ↔ ∀ x ∈ batch, ∃ hash, x.route = some hash ∧ s.registered hash := by
  induction batch with
  | nil => simp [routeBatch]
  | cons x batch ih =>
    rw [routeBatch, List.forall_mem_cons, ← ih]
    cases x.route with
    | none => simp
    | some hash => by_cases hreg : s.registered hash <;> simp [hreg]

omit [Headed V] in
theorem conflict_eq_none [DecidableEq V] {s : TypedStore V} {batch : List (Write V)}
    (h : ∀ x ∈ batch, x.isGuard = false) : s.conflict batch = none := by
  induction batch with
  | nil => rfl
  | cons x batch ih =>
    have hx := h x List.mem_cons_self
    have ih := ih fun y hy => h y (List.mem_cons_of_mem _ hy)
    cases x with
    | put id value => exact ih
    | remove hash id => exact ih
    | expect hash id value => cases hx

theorem apply_ok [DecidableEq V] {s s' : TypedStore V} {batch : List (Write V)}
    (htyped : ∀ x ∈ batch, x.Typed τ) (h : s.apply batch = .ok s') :
    (∀ x ∈ batch, s.Lands τ x) ∧ s' = s.commitToCaches batch := by
  rw [apply] at h
  cases hroute : s.routeBatch batch with
  | error e =>
    rw [hroute] at h
    cases h
  | ok u =>
    have hlands : ∀ x ∈ batch, s.Lands τ x := fun x hx => by
      obtain ⟨hash, hx', hreg⟩ := routeBatch_eq_ok.mp hroute x hx
      obtain rfl : hash = τ x.id := Option.some.inj (hx'.symm.trans (htyped x hx))
      exact ⟨htyped x hx, hreg⟩
    rw [hroute] at h
    cases hconflict : s.conflict batch with
    | some id =>
      rw [hconflict] at h
      cases h
    | none =>
      rw [hconflict] at h
      exact ⟨hlands, (Except.ok.inj h).symm⟩

theorem apply_of_lands [DecidableEq V] {s : TypedStore V} {batch : List (Write V)}
    (hguard : ∀ x ∈ batch, x.isGuard = false) (hlands : ∀ x ∈ batch, s.Lands τ x) :
    s.apply batch = .ok (s.commitToCaches batch) := by
  have hroute : s.routeBatch batch = .ok () :=
    routeBatch_eq_ok.mpr fun x hx => ⟨τ x.id, hlands x hx⟩
  rw [apply, hroute, conflict_eq_none hguard]
  rfl

end TypedStore

end WaveDb.Core
