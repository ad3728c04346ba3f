import WaveDb.Collection.Perform

-- The instants a collection records over its whole life.
namespace WaveDb.Collection

open WaveDb.Lib WaveDb.Core

variable {T : Type}

section Floor

variable {chains : Chains} {key : Key}

theorem instant_le_last {keys : List Key} (h : Ascending id keys) (hmem : key ∈ keys) :
    key.instant ≤ (keys.getLast?.map Key.instant).getD 0 := by
  rcases List.eq_nil_or_concat keys with rfl | ⟨rest, last, rfl⟩
  · exact (List.not_mem_nil hmem).elim
  · rw [List.concat_eq_append] at h hmem ⊢
    rw [List.getLast?_concat]
    rcases List.mem_append.mp hmem with hrest | hlast
    · exact Key.instant_le_of_lt (h.append.2.2 key hrest last (List.mem_singleton.mpr rfl))
    · rw [List.mem_singleton.mp hlast]
      exact le_rfl

theorem instant_le_floor (h : Ascending id chains.recency) (hmem : key ∈ chains.recency) :
    key.instant ≤ chains.instantFloor :=
  (instant_le_last h hmem).trans (le_max_left _ _)

theorem removal_le_floor (h : Ascending id chains.removals) (hmem : key ∈ chains.removals) :
    key.instant ≤ chains.instantFloor :=
  (instant_le_last h hmem).trans (le_max_right _ _)

end Floor

structure Chains.Ordered (c : Chains) : Prop where
  recency : Ascending id c.recency
  removals : Ascending id c.removals

def Chains.Holds (c : Chains) (instant : Nat) : Prop :=
  ∃ key : Key, (key ∈ c.recency ∨ key ∈ c.removals) ∧ key.instant = instant

theorem Chains.Ordered.le_floor {c : Chains} (h : c.Ordered) {instant : Nat}
    (hholds : c.Holds instant) : instant ≤ c.instantFloor := by
  obtain ⟨key, hkey | hkey, rfl⟩ := hholds
  · exact instant_le_floor h.recency hkey
  · exact removal_le_floor h.removals hkey

-- What an operation at an instant can do to the chains: every key it adds has
-- the instant, and unless the chains stay as they are one of them holds it.
structure Grown (before after : Chains) (instant : Nat) : Prop where
  ordered : after.Ordered
  recency : ∀ key ∈ after.recency, key ∈ before.recency ∨ key.instant = instant
  removals : ∀ key ∈ after.removals, key ∈ before.removals ∨ key.instant = instant
  holds : after = before ∨ after.Holds instant

theorem mem_chainInsert {key other : Key} {keys : List Key} (h : other ∈ chainInsert key keys) :
    other ∈ keys ∨ other = key := by
  rcases mem_putKey.mp h with heq | ⟨hmem, -⟩
  · exact .inr heq
  · exact .inl hmem

theorem self_mem_chainInsert (key : Key) (keys : List Key) : key ∈ chainInsert key keys :=
  mem_putKey.mpr (.inl rfl)

theorem mem_of_mem_chainRemove {key other : Key} {keys : List Key}
    (h : other ∈ chainRemove key keys) : other ∈ keys := (mem_dropKey.mp h).1

section Effects

variable {s : Site T} {id : Id} {authored instant : Nat}

theorem grown_entered (h : s.chains.Ordered) : Grown s.chains (s.entered id instant) instant where
  ordered := ⟨ascending_put h.recency _, h.removals⟩
  recency key hkey := (mem_chainInsert hkey).imp_right fun heq => by rw [heq]
  removals key hkey := .inl hkey
  holds := .inr ⟨_, .inl (self_mem_chainInsert _ _), rfl⟩

theorem grown_moved (h : s.chains.Ordered) :
    Grown s.chains (s.moved id authored instant) instant := by
  rw [Site.moved]
  split
  · exact {
      ordered := ⟨ascending_put (ascending_drop h.recency _) _, h.removals⟩
      recency := fun key hkey =>
        (mem_chainInsert hkey).imp mem_of_mem_chainRemove fun heq => by rw [heq]
      removals := fun key hkey => .inl hkey
      holds := .inr ⟨_, .inl (self_mem_chainInsert _ _), rfl⟩ }
  · exact ⟨h, fun key hkey => .inl hkey, fun key hkey => .inl hkey, .inl rfl⟩

theorem grown_left (h : s.chains.Ordered) :
    Grown s.chains (s.left id authored instant) instant where
  ordered := ⟨ascending_drop h.recency _, ascending_put h.removals _⟩
  recency key hkey := .inl (mem_of_mem_chainRemove hkey)
  removals key hkey := (mem_chainInsert hkey).imp_right fun heq => by rw [heq]
  holds := .inr ⟨_, .inr (self_mem_chainInsert _ _), rfl⟩

theorem grown_logged (h : s.chains.Ordered) : Grown s.chains (s.logged id instant) instant where
  ordered := ⟨h.recency, ascending_put h.removals _⟩
  recency key hkey := .inl hkey
  removals key hkey := (mem_chainInsert hkey).imp_right fun heq => by rw [heq]
  holds := .inr ⟨_, .inr (self_mem_chainInsert _ _), rfl⟩

end Effects

def Change.instant : Change T → Option Nat
  | .saved _ header _ =>
    match header.succession with
    | .createdAt instant => some instant
    | .next _ => none
  | .removed _ instant => some instant

theorem Effect.grown {kind : Kind T} {handle : Handle} {s site : Site T} {instant : Nat}
    {request : Request T} {change : Change T}
    (h : Effect kind handle s instant request change site) (hs : s.chains.Ordered) :
    Grown s.chains site.chains instant ∧ change.instant = some instant := by
  cases h with
  | insert _ _ => exact ⟨grown_entered hs, rfl⟩
  | enter _ _ => exact ⟨grown_entered hs, rfl⟩
  | first _ _ _ => exact ⟨⟨hs, fun key hkey => .inl hkey, fun key hkey => .inl hkey, .inl rfl⟩, rfl⟩
  | next _ _ _ _ _ => exact ⟨grown_moved hs, rfl⟩
  | revive _ _ _ _ _ => exact ⟨grown_entered hs, rfl⟩
  | remove _ _ _ => exact ⟨grown_left hs, rfl⟩
  | removeArchived _ _ _ => exact ⟨grown_logged hs, rfl⟩

section Life

variable [DecidableEq T] {kind : Kind T}

def Site.after (s : Site T) : Outcome Error (Chains × Option (Change T)) × World (Stored T) → Site T
  | (.ok (chains, _), w) => ⟨w.store, chains⟩
  | (_, w) => ⟨w.store, s.chains⟩

-- The life of a collection, the present state first. An operation runs in any process,
-- with a clock and a watermark of its own.
inductive Life (kind : Kind T) : List (Site T) → Prop
  | create (store : Store (Stored T)) : Life kind [⟨store, ⟨[], []⟩⟩]
  | operate {s : Site T} {past : List (Site T)} {w : World (Stored T)} (handle : Handle)
      (request : Request T) (h : Life kind (s :: past)) (hworld : w.store = s.store)
      (hlast : ((perform kind handle s.chains request).runIn w).2.last < 2 ^ 64 - 1) :
      Life kind (s.after ((perform kind handle s.chains request).runIn w) :: s :: past)

variable {s : Site T} {past : List (Site T)} {w : World (Stored T)} {handle : Handle}
  {request : Request T}

-- One operation: there is an instant above the floor that all it records has.
theorem operate_grown (hs : s.chains.Ordered)
    (hlast : ((perform kind handle s.chains request).runIn w).2.last < 2 ^ 64 - 1) :
    ∃ instant, s.chains.instantFloor < instant ∧
      Grown s.chains (s.after ((perform kind handle s.chains request).runIn w)).chains instant ∧
      ∀ chains change w', (perform kind handle s.chains request).runIn w =
        (.ok (chains, some change), w') → change.instant = some instant := by
  have hsame : ∀ instant, Grown s.chains s.chains instant := fun instant =>
    ⟨hs, fun key hkey => .inl hkey, fun key hkey => .inl hkey, .inl rfl⟩
  have hdone := perform_done request hlast
  generalize (perform kind handle s.chains request).runIn w = result at hdone
  cases hdone with
  | refused e _ => exact ⟨_, Nat.lt_succ_self _, hsame _, fun _ _ _ h => by cases h⟩
  | idle => exact ⟨_, Nat.lt_succ_self _, hsame _, fun _ _ _ h => by cases h⟩
  | @effect floor change site hfloor hlt heffect =>
    obtain ⟨hgrown, hinstant⟩ := heffect.grown hs
    refine ⟨w.minted floor, by omega, hgrown, fun chains change' w' h => ?_⟩
    cases h
    exact hinstant

theorem Life.held_le_floor (h : Life kind (s :: past)) : s.chains.Ordered ∧
    ∀ t ∈ s :: past, ∀ instant, t.chains.Holds instant → instant ≤ s.chains.instantFloor := by
  generalize hall : s :: past = all at h
  induction h generalizing s past with
  | create store =>
    cases hall
    refine ⟨⟨List.Pairwise.nil, List.Pairwise.nil⟩, fun t ht instant hholds => ?_⟩
    rw [List.mem_singleton.mp ht] at hholds
    obtain ⟨key, hkey | hkey, -⟩ := hholds <;> exact (List.not_mem_nil hkey).elim
  | @operate before older w handle request _ hworld hlast ih =>
    cases hall
    obtain ⟨hordered, hheld⟩ := ih rfl
    obtain ⟨instant, hfloor, hgrown, -⟩ := operate_grown hordered hlast
    -- the floor does not fall: the chains stay, or one of them holds the new instant
    have hrises : before.chains.instantFloor ≤
        (before.after ((perform kind handle before.chains request).runIn w)).chains.instantFloor := by
      rcases hgrown.holds with heq | hholds
      · rw [heq]
      · exact hfloor.le.trans (hgrown.ordered.le_floor hholds)
    refine ⟨hgrown.ordered, fun t ht held hholds => ?_⟩
    rcases List.mem_cons.mp ht with rfl | ht
    · exact hgrown.ordered.le_floor hholds
    · exact (hheld t ht held hholds).trans hrises

-- Each instant an operation records or commits is later than all that either chain has
-- ever held.
theorem instants_rise (h : Life kind (s :: past))
    (hlast : ((perform kind handle s.chains request).runIn w).2.last < 2 ^ 64 - 1)
    {result : Outcome Error (Chains × Option (Change T)) × World (Stored T)}
    (hresult : (perform kind handle s.chains request).runIn w = result) :
    (∀ key ∈ (s.after result).chains.recency, key ∉ s.chains.recency →
      ∀ t ∈ s :: past, ∀ held, t.chains.Holds held → held < key.instant) ∧
    (∀ key ∈ (s.after result).chains.removals, key ∉ s.chains.removals →
      ∀ t ∈ s :: past, ∀ held, t.chains.Holds held → held < key.instant) ∧
    ∀ chains change w', result = (.ok (chains, some change), w') →
      ∃ instant, change.instant = some instant ∧
        ∀ t ∈ s :: past, ∀ held, t.chains.Holds held → held < instant := by
  subst hresult
  obtain ⟨hordered, hheld⟩ := h.held_le_floor
  obtain ⟨instant, hfloor, hgrown, hchange⟩ := operate_grown hordered hlast
  have hlater : ∀ t ∈ s :: past, ∀ held, t.chains.Holds held → held < instant :=
    fun t ht held hholds => (hheld t ht held hholds).trans_lt hfloor
  refine ⟨fun key hkey hnew => ?_, fun key hkey hnew => ?_, fun chains change w' heq => ?_⟩
  · rw [(hgrown.recency key hkey).resolve_left hnew]
    exact hlater
  · rw [(hgrown.removals key hkey).resolve_left hnew]
    exact hlater
  · exact ⟨instant, hchange chains change w' heq, hlater⟩

end Life

def plainKind : Kind Nat := ⟨7, 0, none⟩

def plainSite : Site Nat := ⟨fun _ => none, ⟨[], []⟩⟩

def plainHandle : Handle := ⟨⟨1, 0⟩, 1, 1⟩

def plainWorld (s : Site Nat) (clock : Nat) : World (Stored Nat) := ⟨s.store, fun n => n + clock, 0⟩

def plainInsert (s : Site Nat) (clock value : Nat) : Site Nat :=
  s.after ((perform plainKind plainHandle s.chains (.insert value)).runIn (plainWorld s clock))

-- The second insertion happens after a restart, with the clock set back.
theorem instants_rise_restarted :
    (plainInsert (plainInsert plainSite 9 3) 5 4).chains.recency.length = 2 ∧
    ∀ key ∈ (plainInsert (plainInsert plainSite 9 3) 5 4).chains.recency,
      key ∉ (plainInsert plainSite 9 3).chains.recency →
        ∀ t ∈ [plainInsert plainSite 9 3, plainSite], ∀ held, t.chains.Holds held →
          held < key.instant := by
  have hlast : ((perform plainKind plainHandle plainSite.chains (.insert 3)).runIn
    (plainWorld plainSite 9)).2.last < 2 ^ 64 - 1 := by decide
  have hlast' : ((perform plainKind plainHandle (plainInsert plainSite 9 3).chains
    (.insert 4)).runIn (plainWorld (plainInsert plainSite 9 3) 5)).2.last < 2 ^ 64 - 1 := by decide
  exact ⟨by decide, (instants_rise (.operate plainHandle (.insert 3) (.create _) rfl hlast) hlast' rfl).1⟩

end WaveDb.Collection
