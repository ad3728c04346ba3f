import WaveDb.Collection.Lives
import WaveDb.Lib.Replay

-- Catching up with a collection: what its chains tell a client that has seen it
-- at an earlier time.
namespace WaveDb.Collection

open WaveDb.Lib WaveDb.Core

variable {T F : Type} {d : Declaration T F}

namespace Catalog

-- The chain names the record, and the record is at its anchor.
def savedAt (hash tenant : Nat) : List Key → Engine (Stored T) (List (Nat × Change T))
  | [] => return []
  | key :: keys => do
      match ← Engine.getOf hash (key.anchor.toId tenant) with
      | none => .fail (.recordMissing (key.anchor.toId tenant))
      | some record => do
          let rest ← savedAt hash tenant keys
          return (key.instant, .saved (key.anchor.toId tenant) record.1 record.2) :: rest

def removedAt (tenant : Nat) (key : Key) : Nat × Change T :=
  (key.instant, .removed (key.anchor.toId tenant) key.instant)

-- The source leaves the order of changes of one instant open.
def timeline (entries : List (Nat × Change T)) : List (Nat × Change T) := entries.mergeSort fun a b => a.1 ≤ b.1

-- Without a cursor the caller registers at the present tail.
def collectionChanges (cat : Catalog d) (tenant : Nat) :
    Option Nat → Engine (Stored T) (Nat × List (Change T))
  | none => return (cat.chains.instantFloor, [])
  | some cursor => do
      let saved ← savedAt d.hash tenant (cat.chains.recency.filter (cursor < ·.instant))
      let removed := (cat.chains.removals.filter (cursor < ·.instant)).map (removedAt tenant)
      let changes := timeline (saved ++ removed)
      return (max ((changes.getLast?.map Prod.fst).getD cursor) cursor, changes.map Prod.snd)

end Catalog

variable {tenant instant cursor : Nat} {x x₀ : Whole d} {living living₀ : Living T} {handle : Handle}
  {request : Request T} {w : World (Stored T)}

section Steps

def Change.id : Change T → Id
  | .saved id _ _ => id
  | .removed id _ => id

def Change.logs : Change T → List Key → List Key
  | .saved _ _ _, keys => keys
  | .removed id at', keys => chainInsert ⟨at', .ofId id⟩ keys

theorem Effect.removals {kind : Kind T} {s site : Site T} {change : Change T}
    (h : Effect kind handle s instant request change site) :
    site.chains.removals = change.logs s.chains.removals := by
  cases h with
  | insert | enter | first | revive | remove | removeArchived => rfl
  | next =>
    change (s.moved _ _ _).removals = _
    rw [Site.moved]
    split <;> rfl

variable [DecidableEq T] [LinearOrder F]

theorem operate_cases (hordered : x.catalog.chains.Ordered)
    (hlast : ((x.catalog.perform handle request).runIn w).2.last < 2 ^ 64 - 1) :
    (x.after ((x.catalog.perform handle request).runIn w)).catalog = x.catalog ∧
        living.answered ((x.catalog.perform handle request).runIn w) = living ∨
      ∃ change instant, x.catalog.chains.instantFloor < instant ∧ change.instant = some instant ∧
        living.answered ((x.catalog.perform handle request).runIn w) = living.after change ∧
        (x.after ((x.catalog.perform handle request).runIn w)).catalog.chains.removals =
          change.logs x.catalog.chains.removals := by
  have hchains := runIn_onChains (x.catalog.perform handle request) w
  rw [onChains_perform] at hchains
  rcases hrun : (x.catalog.perform handle request).runIn w with ⟨⟨cat', _ | change⟩ | e | _, w'⟩
  · exact .inl ⟨perform_idle hrun, rfl⟩
  · rw [hrun] at hchains hlast
    simp only at hchains
    have hdone := perform_done request (by rw [hchains]; exact hlast)
    generalize (perform d.kind handle x.catalog.chains request).runIn w = result at hdone hchains
    cases hdone with
    | refused => cases hchains
    | idle => simp at hchains
    | @effect floor _ site hfloor hlt heffect =>
      simp only [Prod.mk.injEq, Outcome.ok.injEq, Option.some.injEq] at hchains
      obtain ⟨⟨hsite, rfl⟩, -⟩ := hchains
      have hlogs := heffect.removals
      rw [hsite] at hlogs
      exact .inr ⟨_, w.minted floor, hfloor.trans_lt hlt, (heffect.grown hordered).2, rfl, hlogs⟩
  · exact .inl ⟨rfl, rfl⟩
  · exact .inl ⟨rfl, rfl⟩

end Steps

section Stamps

def Change.puts : Change T → Option (Nat × Stored T)
  | .saved id header value => (saved id header value).instant.map fun instant => (instant, header, value)
  | .removed _ _ => none

def Change.removes : Change T → Bool
  | .saved _ _ _ => false
  | .removed _ _ => true

theorem after_eq (change : Change T) :
    living.after change = Function.update living (.ofId change.id) change.puts := by
  cases change <;> rfl

theorem Change.instant_of_puts {change : Change T} {r : Nat × Stored T} (h : change.puts = some r) :
    change.instant = some r.1 ∧ change.removes = false := by
  cases change with
  | saved id header value =>
    obtain ⟨instant, hinstant, rfl⟩ := Option.map_eq_some_iff.mp h
    exact ⟨hinstant, rfl⟩
  | removed => cases h

theorem mem_logs {change : Change T} {keys : List Key} {key : Key} (hinstant : change.instant = some instant) :
    key ∈ change.logs keys ↔ key ∈ keys ∨ change.removes = true ∧ key = ⟨instant, .ofId change.id⟩ := by
  cases change with
  | saved => simp [Change.logs, Change.removes]
  | removed id at' =>
    cases hinstant
    have hmem : key ∈ chainInsert ⟨instant, .ofId id⟩ keys ↔ _ := mem_putKey
    rw [Change.logs, hmem]
    by_cases hkey : key = ⟨instant, .ofId id⟩ <;> simp [hkey, Change.removes, Change.id]

-- An instant the collection shows: of a living record or of a removal.
def Stamped (removals : List Key) (living : Living T) (instant : Nat) (a : LocalId) : Bool → Prop
  | false => ∃ record, living a = some (instant, record)
  | true => ⟨instant, a⟩ ∈ removals

-- No instant is shown twice, and a record that came back is later than its removals.
structure Timed (removals : List Key) (living : Living T) : Prop where
  single : ∀ {instant : Nat} {a a' : LocalId} {b b' : Bool}, Stamped removals living instant a b →
    Stamped removals living instant a' b' → a = a' ∧ b = b'
  revived : ∀ key ∈ removals, ∀ r, living key.anchor = some r → key.instant < r.1

-- What has happened since the cursor, from the records that were living then.
structure Since (cursor : Nat) (living₀ : Living T) (chains : Chains) (living : Living T) : Prop where
  floor : cursor ≤ chains.instantFloor
  older : ∀ a r, living a = some r → r.1 ≤ cursor → living₀ a = some r
  gone : ∀ a, living a = none → living₀ a = none ∨
    ∃ key ∈ chains.removals, key.anchor = a ∧ cursor < key.instant

variable {removals : List Key} {change : Change T}

theorem Stamped.committed (hinstant : change.instant = some instant) {i : Nat} {a : LocalId} {b : Bool}
    (h : Stamped (change.logs removals) (living.after change) i a b) :
    Stamped removals living i a b ∨ i = instant ∧ a = .ofId change.id ∧ b = change.removes := by
  cases b with
  | false =>
    obtain ⟨record, hrecord⟩ := h
    rw [after_eq] at hrecord
    by_cases ha : a = .ofId change.id
    · rw [ha, Function.update_self] at hrecord
      obtain ⟨hi, hremoves⟩ := Change.instant_of_puts hrecord
      exact .inr ⟨Option.some.inj (hi.symm.trans hinstant), ha, hremoves.symm⟩
    · rw [Function.update_of_ne ha] at hrecord
      exact .inl ⟨record, hrecord⟩
  | true =>
    rcases (mem_logs hinstant).mp h with hkey | ⟨hremoves, hkey⟩
    · exact .inl hkey
    · cases hkey
      exact .inr ⟨rfl, rfl, hremoves.symm⟩

-- Two keys of one chain with one instant are one key.
theorem Timed.instant_lt (h : Timed removals living) {b : Bool} {key key' : Key}
    (hs : Stamped removals living key.instant key.anchor b) (hs' : Stamped removals living key'.instant key'.anchor b)
    (hlt : key < key') : key.instant < key'.instant := by
  refine lt_of_le_of_ne (Key.instant_le_of_lt hlt) fun heq => ?_
  have hanchor := (h.single (heq ▸ hs) hs').1
  obtain ⟨i, a⟩ := key
  cases heq
  cases hanchor
  exact lt_irrefl _ hlt

theorem stamped_new (living : Living T) (hinstant : change.instant = some instant) :
    Stamped (change.logs removals) (living.after change) instant (.ofId change.id) change.removes := by
  cases change with
  | saved id header value =>
    refine ⟨(header, value), ?_⟩
    rw [after_eq, Change.id, Function.update_self, Change.puts, hinstant]
    rfl
  | removed id at' => exact (mem_logs hinstant).mpr (.inr ⟨rfl, rfl⟩)

variable [LinearOrder F]

theorem Faithful.authored (h : Faithful tenant x living) {a : LocalId} {stored : Stored T}
    (hliving : living a = some (instant, stored)) : stored.1.succession = .createdAt instant := by
  rw [h.anchors] at hliving
  split at hliving
  · cases hliving
  · exact (livingRecord_eq_some.mp hliving).2.1

theorem Stamped.le_floor (h : Faithful tenant x living) {a : LocalId} {b : Bool}
    (hstamp : Stamped x.catalog.chains.removals living instant a b) :
    instant ≤ x.catalog.chains.instantFloor := by
  cases b with
  | false => exact h.ordered.le_floor ⟨⟨instant, a⟩, .inl (h.held.mem_recency.mpr hstamp), rfl⟩
  | true => exact h.ordered.le_floor ⟨⟨instant, a⟩, .inr hstamp, rfl⟩

theorem Timed.committed (h : Timed x.catalog.chains.removals living) (hfaithful : Faithful tenant x living)
    (hfloor : x.catalog.chains.instantFloor < instant) (hinstant : change.instant = some instant) :
    Timed (change.logs x.catalog.chains.removals) (living.after change) := by
  refine ⟨fun hs hs' => ?_, fun key hkey r hr => ?_⟩
  · rcases hs.committed hinstant with hs | ⟨rfl, rfl, rfl⟩ <;>
      rcases hs'.committed hinstant with hs' | ⟨heq, rfl, rfl⟩
    · exact h.single hs hs'
    · have hle := hs.le_floor hfaithful
      omega
    · have hle := hs'.le_floor hfaithful
      omega
    · exact ⟨rfl, rfl⟩
  · rw [mem_logs hinstant] at hkey
    rw [after_eq] at hr
    by_cases ha : key.anchor = .ofId change.id
    · rw [ha, Function.update_self] at hr
      obtain ⟨hi, hremoves⟩ := Change.instant_of_puts hr
      cases hi.symm.trans hinstant
      rcases hkey with hkey | ⟨hremoved, -⟩
      · exact (hfaithful.ordered.le_floor ⟨key, .inr hkey, rfl⟩).trans_lt hfloor
      · rw [hremoves] at hremoved
        cases hremoved
    · rw [Function.update_of_ne ha] at hr
      rcases hkey with hkey | ⟨-, rfl⟩
      · exact h.revived key hkey r hr
      · exact (ha rfl).elim

theorem Since.committed {x' : Whole d} (h : Since cursor living₀ x.catalog.chains living)
    (hfaithful : Faithful tenant x' (living.after change))
    (hfloor : x.catalog.chains.instantFloor < instant) (hinstant : change.instant = some instant)
    (hlogs : x'.catalog.chains.removals = change.logs x.catalog.chains.removals) :
    Since cursor living₀ x'.catalog.chains (living.after change) := by
  have hcursor := h.floor
  have hstamp : Stamped x'.catalog.chains.removals (living.after change) instant (.ofId change.id)
      change.removes := by
    rw [hlogs]
    exact stamped_new living hinstant
  have hnew := hstamp.le_floor hfaithful
  refine ⟨by omega, fun a r hr hle => ?_, fun a hgone => ?_⟩
  · rw [after_eq] at hr
    by_cases ha : a = .ofId change.id
    · rw [ha, Function.update_self] at hr
      cases (Change.instant_of_puts hr).1.symm.trans hinstant
      omega
    · rw [Function.update_of_ne ha] at hr
      exact h.older a r hr hle
  · by_cases ha : a = .ofId change.id
    · cases hremoves : change.removes with
      | true =>
        rw [hremoves] at hstamp
        exact .inr ⟨_, hstamp, ha.symm, hcursor.trans_lt hfloor⟩
      | false =>
        rw [hremoves] at hstamp
        obtain ⟨record, hrecord⟩ := hstamp
        rw [← ha, hgone] at hrecord
        cases hrecord
    · rw [after_eq, Function.update_of_ne ha] at hgone
      rcases h.gone a hgone with hbefore | ⟨key, hkey, hanchor, hlt⟩
      · exact .inl hbefore
      · rw [hlogs]
        exact .inr ⟨key, (mem_logs hinstant).mpr (.inl hkey), hanchor, hlt⟩

end Stamps

section Runs

variable [DecidableEq T] [LinearOrder F]

-- The states a collection can come to from a given one.
inductive Onward (d : Declaration T F) (tenant : Nat) (x₀ : Whole d) (living₀ : Living T) :
    Whole d → Living T → Prop
  | here : Onward d tenant x₀ living₀ x₀ living₀
  | operate {x : Whole d} {living : Living T} {w : World (Stored T)} (handle : Handle)
      (request : Request T) (h : Onward d tenant x₀ living₀ x living) (htenant : handle.tenant = tenant)
      (hrequest : request.Within tenant living) (hworld : w.store = x.store)
      (hlast : ((x.catalog.perform handle request).runIn w).2.last < 2 ^ 64 - 1) :
      Onward d tenant x₀ living₀ (x.after ((x.catalog.perform handle request).runIn w))
        (living.answered ((x.catalog.perform handle request).runIn w))

theorem Onward.built (h : Onward d tenant x₀ living₀ x living) (h₀ : Built d tenant x₀ living₀) :
    Built d tenant x living := by
  induction h with
  | here => exact h₀
  | operate handle request _ htenant hrequest hworld hlast ih =>
    exact ih.operate handle request htenant hrequest hworld hlast

theorem Built.timed (h : Built d tenant x living) : Timed x.catalog.chains.removals living := by
  induction h with
  | create =>
    refine ⟨?_, fun key hkey => (List.not_mem_nil hkey).elim⟩
    rintro instant a a' (_ | _) b' hs -
    · obtain ⟨record, hrecord⟩ := hs
      cases hrecord
    · exact (List.not_mem_nil hs).elim
  | operate handle request h htenant hrequest hworld hlast ih =>
    rcases operate_cases h.faithful.ordered hlast with ⟨hcat, hliving⟩ |
      ⟨change, instant, hfloor, hinstant, hliving, hlogs⟩
    · rw [hliving, hcat]
      exact ih
    · rw [hliving, hlogs]
      exact ih.committed h.faithful hfloor hinstant

theorem Onward.since (h : Onward d tenant x₀ living₀ x living) (h₀ : Built d tenant x₀ living₀) :
    Since x₀.catalog.chains.instantFloor living₀ x.catalog.chains living := by
  induction h with
  | here => exact ⟨le_rfl, fun _ _ hr _ => hr, fun _ hgone => .inl hgone⟩
  | operate handle request h htenant hrequest hworld hlast ih =>
    have hfaithful := ((h.built h₀).operate handle request htenant hrequest hworld hlast).faithful
    rcases operate_cases (h.built h₀).faithful.ordered hlast with ⟨hcat, hliving⟩ |
      ⟨change, instant, hfloor, hinstant, hliving, hlogs⟩
    · rw [hliving, hcat]
      exact ih
    · rw [hliving] at hfaithful ⊢
      exact ih.committed hfaithful hfloor hinstant hlogs

end Runs

section Answer

def savedEntry (tenant : Nat) (living : Living T) (key : Key) : Option (Nat × Change T) :=
  (living key.anchor).map fun r => (key.instant, .saved (key.anchor.toId tenant) r.2.1 r.2.2)

-- The changes past a cursor before they are put in order.
def entries (tenant cursor : Nat) (living : Living T) (chains : Chains) : List (Nat × Change T) :=
  (chains.recency.filter (cursor < ·.instant)).filterMap (savedEntry tenant living) ++
    (chains.removals.filter (cursor < ·.instant)).map (Catalog.removedAt tenant)

variable [LinearOrder F] {e : Nat × Change T} {clock : Nat → Nat} {last : Nat}

theorem runIn_savedAt [DecidableEq T] (h : Faithful tenant x living) {hash : Nat} {keys : List Key}
    (hkeys : ∀ key ∈ keys, key ∈ x.catalog.chains.recency) :
    (Catalog.savedAt hash tenant keys).runIn ⟨x.store, clock, last⟩ =
      (.ok (keys.filterMap (savedEntry tenant living)), ⟨x.store, clock, last⟩) := by
  induction keys with
  | nil => rfl
  | cons key keys ih =>
    obtain ⟨hkey, hrest⟩ := List.forall_mem_cons.mp hkeys
    obtain ⟨record, hrecord⟩ := h.held.mem_recency.mp hkey
    have hentry : savedEntry tenant living key =
        some (key.instant, .saved (key.anchor.toId tenant) record.1 record.2) := by
      rw [savedEntry, hrecord]
      rfl
    rw [Catalog.savedAt, Engine.runIn_bind_ok (Engine.runIn_getOf _ _ _), List.filterMap_cons_some hentry]
    simp only [h.store_of_living hrecord]
    exact Engine.runIn_bind_ok (ih hrest)

theorem runIn_collectionChanges [DecidableEq T] (h : Faithful tenant x living) :
    (x.catalog.collectionChanges tenant (some cursor)).runIn ⟨x.store, clock, last⟩ =
      (.ok (max (((Catalog.timeline (entries tenant cursor living x.catalog.chains)).getLast?.map Prod.fst).getD cursor)
        cursor, (Catalog.timeline (entries tenant cursor living x.catalog.chains)).map Prod.snd),
        ⟨x.store, clock, last⟩) :=
  Engine.runIn_bind_ok (runIn_savedAt h fun _ hkey => List.mem_of_mem_filter hkey)

-- An entry is a stamp past the cursor, and puts what is living there now.
theorem mem_entries (h : Faithful tenant x living) (he : e ∈ entries tenant cursor living x.catalog.chains) :
    cursor < e.1 ∧ e.2.instant = some e.1 ∧
      Stamped x.catalog.chains.removals living e.1 (.ofId e.2.id) e.2.removes ∧
      (e.2.removes = false → e.2.puts = living (.ofId e.2.id)) := by
  rcases List.mem_append.mp he with he | he
  · obtain ⟨key, hkey, hentry⟩ := List.mem_filterMap.mp he
    obtain ⟨hkey, hcursor⟩ := List.mem_filter.mp hkey
    obtain ⟨record, hrecord⟩ := h.held.mem_recency.mp hkey
    rw [savedEntry, hrecord] at hentry
    cases hentry
    have hinstant : (Change.saved (key.anchor.toId tenant) record.1 record.2).instant = some key.instant := by
      simp only [Change.instant, h.authored hrecord]
    refine ⟨of_decide_eq_true hcursor, hinstant, ⟨record, hrecord⟩, fun _ => ?_⟩
    rw [Change.puts, hinstant]
    exact hrecord.symm
  · obtain ⟨key, hkey, rfl⟩ := List.mem_map.mp he
    obtain ⟨hkey, hcursor⟩ := List.mem_filter.mp hkey
    exact ⟨of_decide_eq_true hcursor, rfl, hkey, fun hsaved => by cases hsaved⟩

theorem entry_of_stamped (h : Faithful tenant x living) {a : LocalId} {b : Bool}
    (hstamp : Stamped x.catalog.chains.removals living instant a b) (hcursor : cursor < instant) :
    ∃ e ∈ entries tenant cursor living x.catalog.chains, e.1 = instant ∧ .ofId e.2.id = a ∧ e.2.removes = b := by
  cases b with
  | false =>
    have hkey := h.held.mem_recency.mpr hstamp
    obtain ⟨record, hrecord⟩ := hstamp
    refine ⟨(instant, .saved (a.toId tenant) record.1 record.2), List.mem_append_left _ (List.mem_filterMap.mpr
      ⟨⟨instant, a⟩, List.mem_filter.mpr ⟨hkey, decide_eq_true hcursor⟩, ?_⟩), rfl, rfl, rfl⟩
    rw [savedEntry, hrecord]
    rfl
  | true =>
    exact ⟨_, List.mem_append_right _ (List.mem_map.mpr ⟨⟨instant, a⟩,
      List.mem_filter.mpr ⟨hstamp, decide_eq_true hcursor⟩, rfl⟩), rfl, rfl, rfl⟩

theorem entries_distinct (h : Faithful tenant x living) (htimed : Timed x.catalog.chains.removals living) :
    (entries tenant cursor living x.catalog.chains).Pairwise fun e e' => e.1 ≠ e'.1 := by
  refine List.pairwise_append.mpr ⟨List.pairwise_filterMap.mpr ?_, List.pairwise_map.mpr ?_, ?_⟩
  · refine (h.ordered.recency.filter _).imp_of_mem fun {key key'} hkey hkey' hlt e he e' he' => ?_
    have hs := h.held.mem_recency.mp (List.mem_of_mem_filter hkey)
    have hs' := h.held.mem_recency.mp (List.mem_of_mem_filter hkey')
    obtain ⟨_, -, rfl⟩ := Option.map_eq_some_iff.mp he
    obtain ⟨_, -, rfl⟩ := Option.map_eq_some_iff.mp he'
    exact (htimed.instant_lt (b := false) hs hs' hlt).ne
  · refine (h.ordered.removals.filter _).imp_of_mem fun {key key'} hkey hkey' hlt => ?_
    exact (htimed.instant_lt (b := true) (List.mem_of_mem_filter hkey) (List.mem_of_mem_filter hkey') hlt).ne
  · intro e he e' he' heq
    obtain ⟨-, -, hs, -⟩ := mem_entries h (List.mem_append_left _ he)
    obtain ⟨-, -, hs', -⟩ := mem_entries h (List.mem_append_right _ he')
    have hremoves := (htimed.single (heq ▸ hs) hs').2
    obtain ⟨_, -, hsaved⟩ := List.mem_filterMap.mp he
    obtain ⟨_, -, rfl⟩ := Option.map_eq_some_iff.mp hsaved
    obtain ⟨_, -, rfl⟩ := List.mem_map.mp he'
    cases hremoves

theorem mem_timeline {es : List (Nat × Change T)} : e ∈ Catalog.timeline es ↔ e ∈ es :=
  (List.mergeSort_perm es _).mem_iff

-- The last change is at the floor, unless there is none.
theorem next_cursor (h : Faithful tenant x living) (hcursor : cursor ≤ x.catalog.chains.instantFloor)
    (hascending : (Catalog.timeline (entries tenant cursor living x.catalog.chains)).Pairwise
      fun e e' => e.1 < e'.1) :
    max (((Catalog.timeline (entries tenant cursor living x.catalog.chains)).getLast?.map Prod.fst).getD cursor)
      cursor = x.catalog.chains.instantFloor := by
  have hmem : ∀ e ∈ Catalog.timeline (entries tenant cursor living x.catalog.chains),
      cursor < e.1 ∧ e.1 ≤ x.catalog.chains.instantFloor := by
    intro e he
    obtain ⟨hlt, -, hstamp, -⟩ := mem_entries h (mem_timeline.mp he)
    exact ⟨hlt, hstamp.le_floor h⟩
  -- the floor is an instant of one of the chains
  have hfloor : cursor < x.catalog.chains.instantFloor →
      ∃ e ∈ Catalog.timeline (entries tenant cursor living x.catalog.chains),
        e.1 = x.catalog.chains.instantFloor := by
    intro hlt
    obtain ⟨a, b, hstamp⟩ : ∃ a b,
        Stamped x.catalog.chains.removals living x.catalog.chains.instantFloor a b := by
      rcases max_choice ((x.catalog.chains.recency.getLast?.map Key.instant).getD 0)
        ((x.catalog.chains.removals.getLast?.map Key.instant).getD 0) with hmax | hmax
      · cases hkey : x.catalog.chains.recency.getLast? with
        | none => simp_all [Chains.instantFloor]
        | some key =>
          rw [Chains.instantFloor, hmax, hkey]
          exact ⟨key.anchor, false, h.held.mem_recency.mp (List.mem_of_getLast? hkey)⟩
      · cases hkey : x.catalog.chains.removals.getLast? with
        | none => simp_all [Chains.instantFloor]
        | some key =>
          rw [Chains.instantFloor, hmax, hkey]
          exact ⟨key.anchor, true, List.mem_of_getLast? hkey⟩
    obtain ⟨e, he, hinstant, -⟩ := entry_of_stamped h hstamp hlt
    exact ⟨e, mem_timeline.mpr he, hinstant⟩
  generalize Catalog.timeline (entries tenant cursor living x.catalog.chains) = changes at hascending hmem hfloor
  rcases List.eq_nil_or_concat changes with rfl | ⟨front, final, rfl⟩
  · by_contra hne
    obtain ⟨e, he, -⟩ := hfloor (by simp at hne; omega)
    exact List.not_mem_nil he
  · rw [List.concat_eq_append] at hascending hmem hfloor ⊢
    obtain ⟨hlt, hle⟩ := hmem final (by simp)
    obtain ⟨e, he, heq⟩ := hfloor (by omega)
    have hlast : e.1 ≤ final.1 := by
      rcases List.mem_append.mp he with he | he
      · exact ((List.pairwise_append.mp hascending).2.2 e he final (by simp)).le
      · rw [List.mem_singleton.mp he]
    rw [List.getLast?_concat]
    simp only [Option.map_some, Option.getD_some]
    omega

theorem replay_entries (h : Faithful tenant x living) (htimed : Timed x.catalog.chains.removals living)
    (hsince : Since cursor living₀ x.catalog.chains living) {changes : List (Nat × Change T)}
    (hascending : changes.Pairwise fun e e' => e.1 < e'.1)
    (hchanges : ∀ {e}, e ∈ changes ↔ e ∈ entries tenant cursor living x.catalog.chains) :
    replay (fun e => LocalId.ofId e.2.id) (fun e => e.2.puts) living₀ changes = living := by
  funext a
  -- the changes at the anchor, by what is living there
  have hat : ∀ e ∈ changes, LocalId.ofId e.2.id = a → cursor < e.1 ∧
      (e.2.puts = living a ∧ (∃ record, living a = some (e.1, record)) ∨
        e.2.puts = none ∧ ∀ r, living a = some r → e.1 < r.1) := by
    rintro e he rfl
    obtain ⟨hlt, hinstant, hstamp, hputs⟩ := mem_entries h (hchanges.mp he)
    refine ⟨hlt, ?_⟩
    cases hremoves : e.2.removes with
    | false =>
      rw [hremoves] at hstamp
      exact .inl ⟨hputs hremoves, hstamp⟩
    | true =>
      rw [hremoves] at hstamp
      refine .inr ⟨?_, htimed.revived _ hstamp⟩
      cases hputs : e.2.puts with
      | none => rfl
      | some r => cases (Change.instant_of_puts hputs).2.symm.trans hremoves
  cases hliving : living a with
  | none =>
    refine replay_agree (fun e he ha => ?_) ?_
    · rcases (hat e he ha).2 with ⟨hputs, -⟩ | ⟨hputs, -⟩
      · rw [hputs, hliving]
      · exact hputs
    · rcases hsince.gone a hliving with hbefore | ⟨key, hkey, rfl, hlt⟩
      · exact .inl hbefore
      · obtain ⟨e, he, -, ha, -⟩ := entry_of_stamped h (b := true) hkey hlt
        exact .inr ⟨e, hchanges.mpr he, ha⟩
  | some r =>
    rw [hliving] at hat
    rcases Nat.lt_or_ge cursor r.1 with hlt | hle
    · obtain ⟨e, he, hinstant, ha, hremoves⟩ := entry_of_stamped h (b := false) ⟨r.2, hliving⟩ hlt
      obtain ⟨-, -, -, hputs⟩ := mem_entries h he
      rw [← hliving, ← ha, ← hputs hremoves]
      refine replay_latest hascending (hchanges.mpr he) fun e' he' hplace => ?_
      rcases (hat e' he' (hplace.trans ha)).2 with ⟨-, record, hrecord⟩ | ⟨-, hbefore⟩
      · cases hrecord
        exact hinstant.ge
      · exact hinstant ▸ (hbefore r rfl).le
    · rw [replay_untouched fun e he ha => ?_, hsince.older a r hliving hle]
      obtain ⟨hlt, ⟨-, record, hrecord⟩ | ⟨-, hbefore⟩⟩ := hat e he ha
      · cases hrecord
        omega
      · have := hbefore r rfl
        omega

end Answer

variable [DecidableEq T] [LinearOrder F]

-- A client that had seen the living records at one time and asks with the
-- cursor of that time comes to the present ones, whatever was done in between.
theorem catch_up_converges (h₀ : Built d tenant x₀ living₀) (h : Onward d tenant x₀ living₀ x living)
    (clock : Nat → Nat) (last : Nat) :
    ∃ changes : List (Nat × Change T),
      (x.catalog.collectionChanges tenant (some x₀.catalog.chains.instantFloor)).runIn ⟨x.store, clock, last⟩ =
        (.ok (x.catalog.chains.instantFloor, changes.map Prod.snd), ⟨x.store, clock, last⟩) ∧
      (changes.map Prod.snd).foldl Living.after living₀ = living ∧
      changes.Pairwise (fun e e' => e.1 < e'.1) ∧
      ∀ e ∈ changes, e.2.instant = some e.1 ∧ x₀.catalog.chains.instantFloor < e.1 := by
  have hbuilt := h.built h₀
  have hsince := h.since h₀
  have hascending : (Catalog.timeline (entries tenant x₀.catalog.chains.instantFloor living
      x.catalog.chains)).Pairwise fun e e' => e.1 < e'.1 :=
    sorted_ascending (entries_distinct hbuilt.faithful hbuilt.timed)
  refine ⟨_, ?_, ?_, hascending, fun e he => ?_⟩
  · rw [runIn_collectionChanges hbuilt.faithful, next_cursor hbuilt.faithful hsince.floor hascending]
  · refine Eq.trans ?_ (replay_entries hbuilt.faithful hbuilt.timed hsince hascending mem_timeline)
    rw [List.foldl_map, replay]
    simp only [after_eq]
  · obtain ⟨hlt, hinstant, -⟩ := mem_entries hbuilt.faithful (mem_timeline.mp he)
    exact ⟨hinstant, hlt⟩

def oneNote : Whole notes :=
  noNotes.after ((noNotes.catalog.perform noteHandle (.insert (1, 5))).runIn ⟨noNotes.store, fun _ => 4, 0⟩)

theorem onward_oneNote : ∃ living, Onward notes 1 noNotes (fun _ => none) oneNote living :=
  ⟨_, .operate noteHandle (.insert (1, 5)) .here rfl trivial rfl (show (4 : Nat) < 2 ^ 64 - 1 by decide)⟩

theorem built_noNotes : Built notes 1 noNotes fun _ => none := .create _ fun _ => rfl

theorem catch_up_converges_note :
    ∃ changes : List (Nat × Change (Nat × Nat)), (oneNote.catalog.collectionChanges 1 (some 0)).runIn
        ⟨oneNote.store, id, 0⟩ = (.ok (4, changes.map Prod.snd), ⟨oneNote.store, id, 0⟩) ∧
      changes.Pairwise fun e e' => e.1 < e'.1 := by
  obtain ⟨living, honward⟩ := onward_oneNote
  obtain ⟨changes, hrun, -, hascending, -⟩ := catch_up_converges built_noNotes honward id 0
  exact ⟨changes, hrun, hascending⟩

end WaveDb.Collection
