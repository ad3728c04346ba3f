import WaveDb.Collection.CatchUp

-- What the readers of a collection show in any state it can come to.
namespace WaveDb.Collection

open WaveDb.Lib WaveDb.Core

variable {T F : Type} {d : Declaration T F} {tenant : Nat} {x : Whole d} {living : Living T}

def Whole.Live (tenant : Nat) (x : Whole d) (a : LocalId) (stored : Stored T) : Prop :=
  a.flag = false ∧ x.store (a.toId tenant) = some stored ∧ stored.1.removed = false

-- All of them, each with the instant of its version, from the last written down.
structure Whole.Walks (tenant : Nat) (x : Whole d) (records : List (Nat × Id × Stored T)) : Prop where
  descending : records.Pairwise fun r s => s.1 < r.1
  stamped : ∀ r ∈ records, r.2.2.1.succession = .createdAt r.1
  mem : ∀ a stored, (a.toId tenant, stored) ∈ records.map Prod.snd ↔ x.Live tenant a stored

variable [LinearOrder F]

theorem Faithful.live_iff (h : Faithful tenant x living) {a : LocalId} {stored : Stored T} :
    x.Live tenant a stored ↔ ∃ instant, living a = some (instant, stored) := by
  simp only [h.anchors, Whole.Live]
  cases hflag : a.flag with
  | true => simp
  | false =>
    simp only [Bool.false_eq_true, if_false, livingRecord_eq_some, true_and]
    constructor
    · rintro ⟨hstore, hlive⟩
      obtain ⟨instant, hinstant⟩ := h.created a stored hflag hstore
      exact ⟨instant, hstore, hinstant, hlive⟩
    · rintro ⟨instant, hstore, -, hlive⟩
      exact ⟨hstore, hlive⟩

theorem Faithful.mem_index (h : Faithful tenant x living) {E K : Type} [LinearOrder K] {f : E → K}
    {owner : E → LocalId} {entries : LocalId → Nat × Stored T → List E} {xs : List E} {P : Stored T → Prop} {e : E}
    (hxs : Indexes f owner entries living xs) (hentries : ∀ r, e ∈ entries (owner e) r ↔ P r.2) :
    e ∈ xs ↔ ∃ stored, x.Live tenant (owner e) stored ∧ P stored := by
  rw [hxs.mem]
  simp only [h.live_iff, hentries]
  constructor
  · rintro ⟨r, hr, hP⟩
    exact ⟨r.2, ⟨r.1, hr⟩, hP⟩
  · rintro ⟨stored, ⟨instant, hr⟩, hP⟩
    exact ⟨(instant, stored), hr, hP⟩

variable [DecidableEq T]

def recordAt (tenant : Nat) (living : Living T) (key : Key) : Option (Nat × Id × Stored T) :=
  (living key.anchor).map fun r => (key.instant, key.anchor.toId tenant, r.2)

theorem Faithful.resolve (h : Faithful tenant x living) {hash last : Nat} {clock : Nat → Nat} {keys : List Key}
    (hkeys : ∀ key ∈ keys, key ∈ x.catalog.chains.recency) :
    (Catalog.resolve hash tenant keys).runIn ⟨x.store, clock, last⟩ =
      (.ok ((keys.filterMap (recordAt tenant living)).map Prod.snd), ⟨x.store, clock, last⟩) := by
  induction keys with
  | nil => rfl
  | cons key keys ih =>
    obtain ⟨hkey, hrest⟩ := List.forall_mem_cons.mp hkeys
    obtain ⟨record, hrecord⟩ := h.held.mem_recency.mp hkey
    have hat : recordAt tenant living key = some (key.instant, key.anchor.toId tenant, record) := by
      rw [recordAt, hrecord]
      rfl
    rw [Catalog.resolve, Engine.runIn_bind_ok (Engine.runIn_getOf _ _ _), List.filterMap_cons_some hat]
    simp only [h.store_of_living hrecord]
    exact Engine.runIn_bind_ok (ih hrest)

theorem Built.all (h : Built d tenant x living) (clock : Nat → Nat) (last : Nat) :
    ∃ records : List (Nat × Id × Stored T),
      (x.catalog.all tenant).runIn ⟨x.store, clock, last⟩ =
        (.ok (records.map Prod.snd), ⟨x.store, clock, last⟩) ∧ x.Walks tenant records := by
  have hkey : ∀ {key : Key}, key ∈ x.catalog.chains.recency.reverse →
      ∃ record, living key.anchor = some (key.instant, record) :=
    fun hkey => h.faithful.held.mem_recency.mp (List.mem_reverse.mp hkey)
  refine ⟨_, h.faithful.resolve fun key hmem => List.mem_reverse.mp hmem, List.pairwise_filterMap.mpr ?_,
    fun r hr => ?_, fun a stored => ?_⟩
  · refine (List.pairwise_reverse.mpr h.faithful.ordered.recency).imp_of_mem
      fun {key key'} hmem hmem' hlt r hr s hs => ?_
    obtain ⟨_, -, rfl⟩ := Option.map_eq_some_iff.mp hr
    obtain ⟨_, -, rfl⟩ := Option.map_eq_some_iff.mp hs
    exact h.timed.instant_lt (b := false) (hkey hmem') (hkey hmem) hlt
  · obtain ⟨key, hmem, hat⟩ := List.mem_filterMap.mp hr
    obtain ⟨record, hrecord⟩ := hkey hmem
    rw [recordAt, hrecord] at hat
    cases hat
    exact h.faithful.authored hrecord
  · rw [h.faithful.live_iff, List.mem_map]
    constructor
    · rintro ⟨r, hr, heq⟩
      obtain ⟨key, hmem, hat⟩ := List.mem_filterMap.mp hr
      obtain ⟨record, hrecord⟩ := hkey hmem
      rw [recordAt, hrecord] at hat
      cases hat
      obtain ⟨hid, rfl⟩ := Prod.mk.inj heq
      exact ⟨key.instant, LocalId.toId_inj.mp hid ▸ hrecord⟩
    · rintro ⟨instant, hliving⟩
      refine ⟨(instant, a.toId tenant, stored), List.mem_filterMap.mpr ⟨⟨instant, a⟩,
        List.mem_reverse.mpr (h.faithful.held.mem_recency.mpr ⟨stored, hliving⟩), ?_⟩, rfl⟩
      rw [recordAt, hliving]
      rfl

theorem readers_show_living (h : Built d tenant x living) (clock : Nat → Nat) (last : Nat) :
    (∃ records : List (Nat × Id × Stored T),
      (x.catalog.all tenant).runIn ⟨x.store, clock, last⟩ =
        (.ok (records.map Prod.snd), ⟨x.store, clock, last⟩) ∧ x.Walks tenant records) ∧
    (∀ i, Ascending Prod.fst (x.catalog.lists i) ∧ ∀ key stored, (key, stored) ∈ x.catalog.lists i ↔
      x.Live tenant key.anchor stored ∧ key.field = d.listField i stored.2) ∧
    (∀ i, Ascending id (x.catalog.secondaries i) ∧ ∀ key, key ∈ x.catalog.secondaries i ↔
      ∃ stored, x.Live tenant key.anchor stored ∧ key.field = d.secondaryField i stored.2) ∧
    ∀ i, Ascending id (x.catalog.fuzzy i) ∧ ∀ key, key ∈ x.catalog.fuzzy i ↔
      ∃ stored, x.Live tenant key.anchor stored ∧ key.field ∈ d.fuzzyFields i stored.2 := by
  have hheld := h.faithful.held
  refine ⟨h.all clock last, fun i => ⟨(hheld.lists i).ascending, fun key stored => ?_⟩,
    fun i => ⟨(hheld.secondaries i).ascending, fun key => h.faithful.mem_index (hheld.secondaries i) fun r => ?_⟩,
    fun i => ⟨(hheld.fuzzy i).ascending, fun key => h.faithful.mem_index (hheld.fuzzy i) fun r => ?_⟩⟩
  · rw [h.faithful.mem_index (hheld.lists i) (P := fun r => r = stored ∧ key.field = d.listField i r.2) fun r => ?_]
    · simp
    · obtain ⟨field, a⟩ := key
      simp [Catalog.listKey, and_comm, eq_comm]
  · obtain ⟨field, a⟩ := key
    simp [Catalog.secKey]
  · obtain ⟨field, a⟩ := key
    simp [Catalog.fuzzyKeys]

theorem readers_show_living_note : ∃ records : List (Nat × Id × Stored (Nat × Nat)),
    (oneNote.catalog.all 1).runIn ⟨oneNote.store, id, 0⟩ = (.ok (records.map Prod.snd), ⟨oneNote.store, id, 0⟩) ∧
    oneNote.Walks 1 records := by
  obtain ⟨living, honward⟩ := onward_oneNote
  exact (readers_show_living (honward.built built_noNotes) id 0).1

end WaveDb.Collection
