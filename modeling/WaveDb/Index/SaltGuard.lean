import WaveDb.Lib.LittleEndian
import WaveDb.Core.Mint
import WaveDb.Index.Segment

-- The registry's guard over the 15-bit salts of everything a type stores.
namespace WaveDb.Index

open WaveDb.Lib WaveDb.Core

section Guard

inductive EntryKind
  | struct
  | fn
  | store
  deriving DecidableEq, Repr

structure Entry where
  kind : EntryKind
  hash : Nat
  shape : Shape
  deriving DecidableEq, Repr

-- "WDB.SEG", "WDB.REC", "WDB.DEAD" and "WDB.IDX".
def Lane.tag : Lane → List UInt8
  | .records => [87, 68, 66, 46, 83, 69, 71]
  | .recency => [87, 68, 66, 46, 82, 69, 67]
  | .dead => [87, 68, 66, 46, 68, 69, 65, 68]
  | .index => [87, 68, 66, 46, 73, 68, 88]

variable (seahash : List UInt8 → Nat)

def Lane.hash (lane : Lane) (structHash : Nat) : Nat := seahash (lane.tag ++ leBytes 8 structHash)

-- A `Unique` type has no collection and so no lanes.
def Entry.laneHashes (e : Entry) : List Nat :=
  match e.shape with
  | .unique => []
  | .nonUnique => [Lane.records, .recency, .dead, .index].map fun lane => lane.hash seahash e.hash

def apart (left right : List Nat) : Bool :=
  left.all fun a => right.all fun b => typeSalt a != typeSalt b

def saltsDistinct (a : Nat) (aLanes : List Nat) (b : Nat) (bLanes : List Nat) : Bool :=
  apart [a] [b] && apart [a] bLanes && apart aLanes [b] && apart aLanes bLanes

def lanesApart (before : List Nat) : List Nat → Bool
  | [] => true
  | lane :: lanes => apart [lane] before && lanesApart (before ++ [lane]) lanes

def saltsSelfDistinct (hash : Nat) (lanes : List Nat) : Bool :=
  apart [hash] lanes && lanesApart (lanes.take 1) (lanes.drop 1)

def selfSaltWarning (e : Entry) : Bool := saltsSelfDistinct e.hash (e.laneHashes seahash)

def saltWarning (a b : Entry) : Bool :=
  saltsDistinct a.hash (a.laneHashes seahash) b.hash (b.laneHashes seahash)

-- The salt checks that the macro generates, with the entries already passed in
-- `before`. Functions are dispatched by hash and never stored.
def saltChecks (before : List Entry) : List Entry → List Bool
  | [] => []
  | b :: rest =>
    (if b.kind ≠ .fn then [selfSaltWarning seahash b] else []) ++
    ((before.filter fun a => a.kind ≠ .fn ∧ b.kind ≠ .fn).map fun a => saltWarning seahash a b) ++
    saltChecks (before ++ [b]) rest

def collisionGuard (entries : List Entry) : List Bool := saltChecks seahash [] entries

end Guard

section Occupants

variable {seahash : List UInt8 → Nat} {entries : List Entry}

def Entry.occupants (seahash : List UInt8 → Nat) (e : Entry) : List Nat := e.hash :: e.laneHashes seahash

theorem apart_iff {left right : List Nat} :
    apart left right = true ↔ ∀ a ∈ left, ∀ b ∈ right, typeSalt a ≠ typeSalt b := by
  simp [apart]

theorem lanesApart_nodup {before lanes : List Nat} (h : lanesApart before lanes = true)
    (hbefore : (before.map typeSalt).Nodup) : ((before ++ lanes).map typeSalt).Nodup := by
  induction lanes generalizing before with
  | nil => rwa [List.append_nil]
  | cons lane lanes ih =>
    rw [lanesApart, Bool.and_eq_true, apart_iff] at h
    have hnew : ((before ++ [lane]).map typeSalt).Nodup := by
      rw [List.map_append, List.nodup_append]
      refine ⟨hbefore, List.nodup_singleton _, ?_⟩
      rintro _ hb _ hl rfl
      obtain ⟨b, hmem, hsalt⟩ := List.mem_map.mp hb
      have heq := List.mem_singleton.mp hl
      exact h.1 lane (List.mem_singleton.mpr rfl) b hmem (heq.symm.trans hsalt.symm)
    have hall := ih h.2 hnew
    rwa [List.append_assoc, List.singleton_append] at hall

theorem nodup_of_selfDistinct {hash : Nat} {lanes : List Nat}
    (h : saltsSelfDistinct hash lanes = true) : ((hash :: lanes).map typeSalt).Nodup := by
  rw [saltsSelfDistinct, Bool.and_eq_true, apart_iff] at h
  rw [List.map_cons, List.nodup_cons]
  constructor
  · intro hmem
    obtain ⟨lane, hlane, hsalt⟩ := List.mem_map.mp hmem
    exact h.1 hash (List.mem_singleton.mpr rfl) lane hlane hsalt.symm
  · cases lanes with
    | nil => exact List.nodup_nil
    | cons lane rest => exact lanesApart_nodup (show lanesApart [lane] rest = true from h.2) (List.nodup_singleton _)

theorem apart_of_saltWarning {a b : Entry} (h : saltWarning seahash a b = true) :
    ∀ x ∈ a.occupants seahash, ∀ y ∈ b.occupants seahash, typeSalt x ≠ typeSalt y := by
  simp only [saltWarning, saltsDistinct, Bool.and_eq_true, apart_iff, List.mem_singleton,
    forall_eq] at h
  obtain ⟨⟨⟨hab, habs⟩, hasb⟩, hasbs⟩ := h
  intro x hx y hy
  rcases List.mem_cons.mp hx with rfl | hx
  · rcases List.mem_cons.mp hy with rfl | hy
    · exact hab
    · exact habs y hy
  · rcases List.mem_cons.mp hy with rfl | hy
    · exact hasb x hx
    · exact hasbs x hx y hy

theorem saltChecks_pass {before rest : List Entry} (h : ∀ c ∈ saltChecks seahash before rest, c = true) :
    (∀ b ∈ rest, b.kind ≠ .fn → selfSaltWarning seahash b = true) ∧
    (∀ a ∈ before, ∀ b ∈ rest, a.kind ≠ .fn → b.kind ≠ .fn → saltWarning seahash a b = true) ∧
    rest.Pairwise fun a b => a.kind ≠ .fn → b.kind ≠ .fn → saltWarning seahash a b = true := by
  induction rest generalizing before with
  | nil => exact ⟨nofun, nofun, .nil⟩
  | cons b rest ih =>
    rw [saltChecks] at h
    obtain ⟨hself, hcross, hpair⟩ := ih fun c hc => h c (List.mem_append_right _ hc)
    have hb : b.kind ≠ .fn → selfSaltWarning seahash b = true := fun hk =>
      h _ (by simp [hk])
    have hbefore : ∀ a ∈ before, a.kind ≠ .fn → b.kind ≠ .fn → saltWarning seahash a b = true := by
      intro a ha hka hkb
      refine h _ (List.mem_append_left _ (List.mem_append_right _ (List.mem_map.mpr ⟨a, ?_, rfl⟩)))
      exact List.mem_filter.mpr ⟨ha, by simp [hka, hkb]⟩
    refine ⟨?_, ?_, List.pairwise_cons.mpr ⟨fun c hc => ?_, hpair⟩⟩
    · exact List.forall_mem_cons.mpr ⟨hb, hself⟩
    · intro a ha c hc
      rcases List.mem_cons.mp hc with rfl | hc
      · exact hbefore a ha
      · exact hcross a (List.mem_append_left _ ha) c hc
    · exact hcross b (List.mem_append_right _ (List.mem_singleton.mpr rfl)) c hc

def Entry.Apart (seahash : List UInt8 → Nat) (a b : Entry) : Prop :=
  a.kind ≠ .fn → b.kind ≠ .fn →
    ∀ x ∈ a.occupants seahash, ∀ y ∈ b.occupants seahash, typeSalt x ≠ typeSalt y

instance : Std.Symm (Entry.Apart seahash) where
  symm _ _ h ha hb x hx y hy := (h hb ha y hy x hx).symm

theorem occupants_apart (h : ∀ c ∈ collisionGuard seahash entries, c = true) {a b : Entry}
    (ha : a ∈ entries) (hb : b ∈ entries) (hne : a ≠ b) : a.Apart seahash b := by
  have hpair : entries.Pairwise (Entry.Apart seahash) :=
    (saltChecks_pass h).2.2.imp fun hw hka hkb => apart_of_saltWarning (hw hka hkb)
  exact hpair.forall ha hb hne

end Occupants

section Kinds

variable (seahash : List UInt8 → Nat) (tenant : Nat)

-- The kinds of values. A piece is a segment of a lane or a node of the sparse
-- index. Tree nodes of all types are one kind.
inductive ValueKind
  | live (e : Entry)
  | archive (e : Entry)
  | piece (e : Entry) (lane : Lane)
  | node
  deriving DecidableEq

def Entry.Stored (entries : List Entry) (e : Entry) : Prop := e ∈ entries ∧ e.kind ≠ .fn

def ValueKind.In (entries : List Entry) : ValueKind → Prop
  | .live e => e.Stored entries
  | .archive e => e.Stored entries
  | .piece e _ => e.Stored entries ∧ e.shape = .nonUnique
  | .node => True

-- The ids of a kind, with whatever key. Natural keys and minted instants give a
-- collection's anchors one form; a `Unique` anchor has its type's hash as key.
def ValueKind.Ids : ValueKind → Id → Prop
  | .live e, id =>
    match e.shape with
    | .unique => id = uniqueAnchor tenant e.hash
    | .nonUnique => ∃ key, id = keyedId tenant e.hash key
  | .archive e, id => ∃ instant, id = archiveId e.hash e.shape instant tenant
  | .piece e lane, id => ∃ key, id = (LocalId.new key true (typeSalt (lane.hash seahash e.hash))).toId tenant
  | .node, id => ∃ key, id = (LocalId.new key true (typeSalt bptreeNodeStructHash)).toId tenant

def ValueKind.mark : ValueKind → Bool × Nat
  | .live e =>
    match e.shape with
    | .unique => (true, 0)
    | .nonUnique => (false, typeSalt e.hash)
  | .archive e => (!e.shape.anchorFlag, typeSalt e.hash)
  | .piece e lane => (true, typeSalt (lane.hash seahash e.hash))
  | .node => (true, typeSalt bptreeNodeStructHash)

def markOf (id : Id) : Bool × Nat := ((LocalId.ofId id).flag, (LocalId.ofId id).salt)

theorem markOf_new (key : Nat) (flag : Bool) (hash : Nat) :
    markOf (Id.new key tenant flag (typeSalt hash)) = (flag, typeSalt hash) := by
  refine Prod.ext (Id.new_flag ..) ?_
  change ((if flag then 2 ^ 15 else 0) + hash % 2 ^ 15 % 2 ^ 15) % 2 ^ 15 = hash % 2 ^ 15
  cases flag
  · simp
  · simp

theorem markOf_ids {k : ValueKind} {id : Id} (h : k.Ids seahash tenant id) :
    markOf id = k.mark seahash := by
  cases k with
  | live e =>
    rw [ValueKind.Ids] at h
    rw [ValueKind.mark]
    cases hs : e.shape with
    | unique =>
      rw [hs] at h
      obtain rfl := h
      exact markOf_new tenant e.hash true 0
    | nonUnique =>
      rw [hs] at h
      obtain ⟨key, rfl⟩ := h
      exact markOf_new tenant key false e.hash
  | archive e =>
    obtain ⟨instant, rfl⟩ := h
    exact markOf_new tenant instant _ e.hash
  | piece e lane =>
    obtain ⟨key, rfl⟩ := h
    exact markOf_new tenant key true _
  | node =>
    obtain ⟨key, rfl⟩ := h
    exact markOf_new tenant key true _

def slotSalt (e : Entry) : Option Lane → Nat
  | none => typeSalt e.hash
  | some lane => typeSalt (lane.hash seahash e.hash)

def SlotIn (entries : List Entry) (e : Entry) (slot : Option Lane) : Prop :=
  e.Stored entries ∧ (slot ≠ none → e.shape = .nonUnique)

variable {seahash tenant} {entries : List Entry}

theorem occupants_nonUnique {e : Entry} (h : e.shape = .nonUnique) : e.occupants seahash =
    [e.hash, Lane.records.hash seahash e.hash, Lane.recency.hash seahash e.hash,
      Lane.dead.hash seahash e.hash, Lane.index.hash seahash e.hash] := by
  rw [Entry.occupants, Entry.laneHashes, h]
  rfl

variable (seahash) in
theorem exists_occupant {e : Entry} {slot : Option Lane} (h : SlotIn entries e slot) :
    ∃ x ∈ e.occupants seahash, typeSalt x = slotSalt seahash e slot := by
  cases slot with
  | none => exact ⟨e.hash, List.mem_cons_self, rfl⟩
  | some lane =>
    refine ⟨lane.hash seahash e.hash, ?_, rfl⟩
    rw [occupants_nonUnique (h.2 nofun)]
    cases lane <;> simp

theorem slot_inj (h : ∀ c ∈ collisionGuard seahash entries, c = true) {e e' : Entry}
    {slot slot' : Option Lane} (hin : SlotIn entries e slot) (hin' : SlotIn entries e' slot')
    (hsalt : slotSalt seahash e slot = slotSalt seahash e' slot') : e = e' ∧ slot = slot' := by
  by_cases hne : e = e'
  swap
  · obtain ⟨x, hx, hxs⟩ := exists_occupant seahash hin
    obtain ⟨y, hy, hys⟩ := exists_occupant seahash hin'
    exact absurd (hxs.trans (hsalt.trans hys.symm))
      (occupants_apart h hin.1.1 hin'.1.1 hne hin.1.2 hin'.1.2 x hx y hy)
  subst hne
  refine ⟨rfl, ?_⟩
  have hself : selfSaltWarning seahash e = true := (saltChecks_pass h).1 e hin.1.1 hin.1.2
  have hnodup : ((e.occupants seahash).map typeSalt).Nodup := nodup_of_selfDistinct hself
  cases hshape : e.shape with
  | unique =>
    cases slot with
    | some lane => exact nomatch hshape.symm.trans (hin.2 nofun)
    | none =>
      cases slot' with
      | some lane => exact nomatch hshape.symm.trans (hin'.2 nofun)
      | none => rfl
  | nonUnique =>
    rw [occupants_nonUnique hshape] at hnodup
    simp only [List.map_cons, List.map_nil, List.nodup_cons, List.mem_cons, List.not_mem_nil,
      or_false, not_or] at hnodup
    rcases slot with _ | lane <;> rcases slot' with _ | lane'
    · rfl
    · cases lane' <;> simp_all [slotSalt]
    · cases lane <;> simp_all [slotSalt]
    · cases lane <;> cases lane' <;> simp_all [slotSalt]

inductive ValueKind.Slot : ValueKind → Entry → Option Lane → Bool → Prop
  | live {e : Entry} (h : e.shape = .nonUnique) : Slot (.live e) e none false
  | archive {e : Entry} : Slot (.archive e) e none (!e.shape.anchorFlag)
  | piece {e : Entry} {lane : Lane} (h : e.shape = .nonUnique) : Slot (.piece e lane) e (some lane) true

section Slots

variable {k k' : ValueKind} {e : Entry} {slot : Option Lane} {flag : Bool}

theorem ValueKind.Slot.mark_eq (h : k.Slot e slot flag) :
    k.mark seahash = (flag, slotSalt seahash e slot) := by
  cases h with
  | live hs => rw [ValueKind.mark, hs]; rfl
  | archive => rfl
  | piece hs => rfl

theorem ValueKind.Slot.unique (h : k.Slot e slot flag) (h' : k'.Slot e slot flag) : k = k' := by
  cases h with
  | live hs =>
    generalize hf : false = f at h'
    cases h' with
    | live _ => rfl
    | archive => simp [hs, Shape.anchorFlag] at hf
  | archive =>
    generalize hf : (!e.shape.anchorFlag) = f at h'
    cases h' with
    | live hs => simp [hs, Shape.anchorFlag] at hf
    | archive => rfl
  | piece hs =>
    cases h' with
    | piece _ => rfl

theorem ValueKind.Slot.nonUnique (h : k.Slot e slot true) : e.shape = .nonUnique := by
  generalize hf : true = f at h
  cases h with
  | live hs => exact hs
  | archive =>
    cases hs : e.shape with
    | unique => simp [hs, Shape.anchorFlag] at hf
    | nonUnique => rfl
  | piece hs => exact hs

theorem ValueKind.In.cases (h : k.In entries) :
    (∃ e slot flag, k.Slot e slot flag ∧ SlotIn entries e slot) ∨
    (∃ e, k = .live e ∧ e.Stored entries ∧ e.shape = .unique) ∨ k = .node := by
  cases k with
  | live e =>
    cases hs : e.shape with
    | unique => exact .inr (.inl ⟨e, rfl, h, hs⟩)
    | nonUnique => exact .inl ⟨e, none, false, .live hs, h, nofun⟩
  | archive e => exact .inl ⟨e, none, _, .archive, h, nofun⟩
  | piece e lane => exact .inl ⟨e, some lane, true, .piece h.2, h.1, fun _ => h.2⟩
  | node => exact .inr (.inr rfl)

end Slots

-- The two salts the guard never compares with: that of the tree nodes, and the
-- zero of `Unique` anchors.
structure Clear (seahash : List UInt8 → Nat) (entries : List Entry) : Prop where
  node : ∀ e : Entry, e.Stored entries → e.shape = .nonUnique →
    ∀ x ∈ e.occupants seahash, typeSalt x ≠ typeSalt bptreeNodeStructHash
  anchor : ∀ u : Entry, u.Stored entries → u.shape = .unique →
    ∀ e : Entry, e.Stored entries → e.shape = .nonUnique → ∀ x ∈ e.occupants seahash, typeSalt x ≠ 0

theorem Clear.slot_ne_node (h : Clear seahash entries) {k : ValueKind} {e : Entry} {slot : Option Lane}
    {flag : Bool} (hk : k.Slot e slot flag) (hin : SlotIn entries e slot) :
    k.mark seahash ≠ ValueKind.node.mark seahash := by
  rw [hk.mark_eq]
  intro heq
  obtain ⟨rfl, hsalt⟩ := Prod.mk.inj heq
  obtain ⟨x, hx, hxs⟩ := exists_occupant seahash hin
  exact h.node e hin.1 hk.nonUnique x hx (hxs.trans hsalt)

theorem Clear.slot_ne_anchor (h : Clear seahash entries) {k : ValueKind} {e u : Entry}
    {slot : Option Lane} {flag : Bool} (hk : k.Slot e slot flag) (hin : SlotIn entries e slot)
    (hu : u.Stored entries) (hs : u.shape = .unique) :
    k.mark seahash ≠ (ValueKind.live u).mark seahash := by
  rw [hk.mark_eq, ValueKind.mark, hs]
  intro heq
  obtain ⟨rfl, hsalt⟩ := Prod.mk.inj heq
  obtain ⟨x, hx, hxs⟩ := exists_occupant seahash hin
  exact h.anchor u hu hs e hin.1 hk.nonUnique x hx (hxs.trans hsalt)

theorem node_ne_anchor {u : Entry} (hs : u.shape = .unique) :
    ValueKind.node.mark seahash ≠ (ValueKind.live u).mark seahash := by
  rw [ValueKind.mark, ValueKind.mark, hs]
  exact fun heq => absurd (Prod.mk.inj heq).2 (by decide)

instance (entries : List Entry) (e : Entry) : Decidable (e.Stored entries) :=
  inferInstanceAs (Decidable (_ ∧ _))

def foldHash (bytes : List UInt8) : Nat := bytes.foldl (fun acc byte => 31 * acc + byte.toNat) 7

-- The lane hashes of a type `Note21242` with one field, `text: String`.
def noteHash (bytes : List UInt8) : Nat :=
  if bytes = Lane.records.tag ++ leBytes 8 0x084c9a1a218f0001 then 0xbc99f20ebfc6ff38
  else if bytes = Lane.recency.tag ++ leBytes 8 0x084c9a1a218f0001 then 0x0056974231c4b43e
  else if bytes = Lane.dead.tag ++ leBytes 8 0x084c9a1a218f0001 then 0x1956a21a9cf244ac
  else 0x405bf54f089e82d9

def noteEntry : Entry := ⟨.struct, 0x084c9a1a218f0001, .nonUnique⟩

end Kinds

end WaveDb.Index
