import WaveDb.Collection.Catalog
import WaveDb.Collection.Instants
import WaveDb.Lib.Indexed

-- Inserts and removals of a keyed type: one record for each key.
namespace WaveDb.Collection

open WaveDb.Lib WaveDb.Core

variable {T F : Type} {d : Declaration T F} {handle : Handle}

namespace Catalog

section Run

variable {cat : Catalog d} {w : World (Stored T)} {id : Id} {value oldValue : T} {old : Metadata}
  {authored : Nat}

def chained (handle : Handle) (cat : Catalog d) (w : World (Stored T)) (id : Id) (revives : Bool)
    (old : Stored T) (authored : Nat) (value : T) : Store (Stored T) :=
  Site.next ⟨w.store, cat.chains⟩ (d.kind.slot handle authored) id old (w.minted cat.chains.instantFloor)
    (handle.nextMeta revives old.1 authored (w.minted cat.chains.instantFloor)) value

section Next

variable [DecidableEq T] (hold : w.store id = some (old, oldValue)) (hauthored : old.succession = .createdAt authored)
  (hfloor : authored ≤ cat.chains.instantFloor) (hlast : cat.chains.instantFloor < 2 ^ 64 - 1)

include hold hauthored hfloor hlast

theorem runIn_next (handle : Handle) (value : T) (revives : Bool) :
    ∃ batch : List (Write (Stored T)),
      (planChainedSave (savePlan d.kind handle cat.chains id none revives) value).runIn w =
        (.ok (batch, some (authored, oldValue),
          handle.nextMeta revives old authored (w.minted cat.chains.instantFloor)),
          w.mint cat.chains.instantFloor) ∧
      (Engine.apply batch).runIn (w.mint cat.chains.instantFloor) =
        (.ok (), (w.mint cat.chains.instantFloor).holding
          (chained handle cat w id revives (old, oldValue) authored value)) := by
  have hmax : max authored cat.chains.instantFloor = cat.chains.instantFloor := max_eq_right hfloor
  have hauthor : Authors (savePlan d.kind handle cat.chains id none revives)
      (max authored cat.chains.instantFloor)
      ((savePlan d.kind handle cat.chains id none revives).nextMeta old authored) w _ _ :=
    runIn_author_none rfl _ _
  have hplan := runIn_planChainedSave_chained value hold hauthored hauthor rfl
  have happly := runIn_apply_nextBatch hold cat.chains d.hash (d.kind.slot handle authored) authored
    (w.minted (max authored cat.chains.instantFloor))
    (handle.nextMeta revives old authored (w.minted (max authored cat.chains.instantFloor))) value
    (store_author hauthor)
  have hlt : authored < w.minted cat.chains.instantFloor := hfloor.trans_lt (World.floor_lt_minted hlast)
  rw [hmax] at hplan happly
  rw [Site.replaced, if_pos hlt] at happly
  exact ⟨_, hplan, happly⟩

variable [LinearOrder F]

theorem runIn_savePlanned (hid : keyedAnchor d.kind handle value = some id) :
    (cat.savePlanned handle id value none).runIn w =
      (.ok (cat.move (.ofId id) authored (w.minted cat.chains.instantFloor)
          (handle.nextMeta false old authored (w.minted cat.chains.instantFloor), value) oldValue,
        .saved id (handle.nextMeta false old authored (w.minted cat.chains.instantFloor)) value),
        (w.mint cat.chains.instantFloor).holding
          (chained handle cat w id false (old, oldValue) authored value)) := by
  obtain ⟨batch, hplan, happly⟩ := runIn_next hold hauthored hfloor hlast handle value false
  rw [savePlanned, hid, if_neg (by simp), Engine.runIn_bind_ok hplan]
  exact Engine.runIn_bind_ok happly

theorem runIn_revive :
    (cat.chainIntoLiving handle id none value).runIn w =
      (.ok (cat.enter (.ofId id) (w.minted cat.chains.instantFloor)
          (handle.nextMeta true old authored (w.minted cat.chains.instantFloor), value),
        .saved id (handle.nextMeta true old authored (w.minted cat.chains.instantFloor)) value),
        (w.mint cat.chains.instantFloor).holding
          (chained handle cat w id true (old, oldValue) authored value)) := by
  obtain ⟨batch, hplan, happly⟩ := runIn_next hold hauthored hfloor hlast handle value true
  rw [chainIntoLiving, Engine.runIn_bind_ok hplan]
  exact Engine.runIn_bind_ok happly

end Next

variable [LinearOrder F]

inductive Inserted (handle : Handle) (cat : Catalog d) (w : World (Stored T)) (id : Id) (value : T) :
    Catalog d → Store (Stored T) → Prop
  | first (hvacant : w.store id = none) :
      Inserted handle cat w id value
        (cat.enter (.ofId id) (w.minted cat.chains.instantFloor)
          (handle.firstMeta (w.minted cat.chains.instantFloor), value))
        (Site.first ⟨w.store, cat.chains⟩ handle id (w.minted cat.chains.instantFloor) value)
  | revived {old : Metadata} {oldValue : T} {authored : Nat} (hold : w.store id = some (old, oldValue))
      (hauthored : old.succession = .createdAt authored) (hdead : old.removed = true) :
      Inserted handle cat w id value
        (cat.enter (.ofId id) (w.minted cat.chains.instantFloor)
          (handle.nextMeta true old authored (w.minted cat.chains.instantFloor), value))
        (chained handle cat w id true (old, oldValue) authored value)
  | saved {old : Metadata} {oldValue : T} {authored : Nat} (hold : w.store id = some (old, oldValue))
      (hauthored : old.succession = .createdAt authored) (hlive : old.removed = false) :
      Inserted handle cat w id value
        (cat.move (.ofId id) authored (w.minted cat.chains.instantFloor)
          (handle.nextMeta false old authored (w.minted cat.chains.instantFloor), value) oldValue)
        (chained handle cat w id false (old, oldValue) authored value)

variable [DecidableEq T]

theorem runIn_enter (hvacant : w.store id = none) :
    (cat.chainIntoLiving handle id none value).runIn w =
      (.ok (cat.enter (.ofId id) (w.minted cat.chains.instantFloor)
          (handle.firstMeta (w.minted cat.chains.instantFloor), value),
        .saved id (handle.firstMeta (w.minted cat.chains.instantFloor)) value),
        (w.mint cat.chains.instantFloor).holding
          (Site.first ⟨w.store, cat.chains⟩ handle id (w.minted cat.chains.instantFloor) value)) := by
  have hauthor : Authors (savePlan d.kind handle cat.chains id none true) cat.chains.instantFloor
      (savePlan d.kind handle cat.chains id none true).firstMeta w _ _ := runIn_author_none rfl _ _
  have hplan := runIn_planChainedSave_vacant value hvacant hauthor
  have happly := Engine.runIn_apply (conflict_first hvacant
    (handle.firstMeta (w.minted cat.chains.instantFloor)) value d.hash (store_author hauthor))
  rw [chainIntoLiving, Engine.runIn_bind_ok hplan]
  exact Engine.runIn_bind_ok happly

theorem runIn_insert (hid : keyedAnchor d.kind handle value = some id)
    (hlive : ∀ old ∈ w.store id, ∃ authored, old.1.succession = .createdAt authored ∧
      authored ≤ cat.chains.instantFloor)
    (hlast : cat.chains.instantFloor < 2 ^ 64 - 1) :
    ∃ (after : Catalog d) (store : Store (Stored T)) (change : Change T),
      Inserted handle cat w id value after store ∧
      (cat.insert handle value).runIn w =
        (.ok (after, change), (w.mint cat.chains.instantFloor).holding store) := by
  rw [insert, hid]
  simp only [upsertKeyed]
  rw [Engine.runIn_bind_ok (runIn_anchor w id)]
  cases hstore : w.store id with
  | none => exact ⟨_, _, _, .first hstore, runIn_enter hstore⟩
  | some stored =>
    obtain ⟨old, oldValue⟩ := stored
    obtain ⟨authored, hauthored, hfloor⟩ := hlive _ hstore
    cases hremoved : old.removed with
    | false =>
      simp only [Metadata.isLive, hremoved, Bool.not_false, if_true]
      exact ⟨_, _, _, .saved hstore hauthored hremoved,
        runIn_savePlanned hstore hauthored hfloor hlast hid⟩
    | true =>
      simp only [Metadata.isLive, hremoved, Bool.not_true, Bool.false_eq_true, if_false]
      exact ⟨_, _, _, .revived hstore hauthored hremoved, runIn_revive hstore hauthored hfloor hlast⟩

theorem runIn_remove_living (hold : w.store id = some (old, oldValue)) (hlive : old.removed = false) :
    (cat.remove id).runIn w =
      (.ok (cat.leave (.ofId id) old.succession (w.minted cat.chains.instantFloor) oldValue,
        some (.removed id (w.minted cat.chains.instantFloor))),
        (w.mint cat.chains.instantFloor).holding
          (Function.update w.store id (some ({ old with removed := true }, oldValue)))) := by
  rw [remove, Engine.runIn_bind_ok (runIn_anchor w id)]
  simp only [hold, Metadata.isLive, hlive, Bool.not_false, if_true]
  rw [Engine.runIn_bind_ok (Engine.runIn_mintInstant _ _), Engine.runIn_bind_ok (Engine.runIn_apply rfl)]
  rfl

theorem runIn_remove_idle (h : ∀ old ∈ w.store id, old.1.removed = true) :
    (cat.remove id).runIn w = (.ok (cat, none), w) := by
  rw [remove, Engine.runIn_bind_ok (runIn_anchor w id)]
  cases hstore : w.store id with
  | none => rfl
  | some stored =>
    have hdead := h _ hstore
    simp only [Metadata.isLive, hdead, Bool.not_true, Bool.false_eq_true, if_false]
    rfl

end Run

end Catalog

section Living

def Declaration.site (d : Declaration T F) (handle : Handle) (key : Nat) : Id :=
  keyedId handle.tenant d.hash key

def livingRecord : Option (Stored T) → Option (Nat × Stored T)
  | none => none
  | some (header, value) =>
    match header.succession with
    | .createdAt instant => if header.removed then none else some (instant, header, value)
    | .next _ => none

theorem livingRecord_eq_some {found : Option (Stored T)} {instant : Nat} {stored : Stored T} :
    livingRecord found = some (instant, stored) ↔
      found = some stored ∧ stored.1.succession = .createdAt instant ∧ stored.1.removed = false := by
  rcases found with _ | ⟨header, value⟩
  · simp [livingRecord]
  · obtain ⟨header', value'⟩ := stored
    cases hsucc : header.succession <;> cases hremoved : header.removed <;>
      simp only [livingRecord, hsucc, hremoved] <;> grind

def livingAt (d : Declaration T F) (handle : Handle) (s : Store (Stored T)) (anchor : LocalId) :
    Option (Nat × Stored T) :=
  if anchor = .ofId (d.site handle anchor.key) then livingRecord (s (d.site handle anchor.key)) else none

variable {s s' : Store (Stored T)} {cat : Catalog d}

theorem site_inj {key key' : Nat} : d.site handle key = d.site handle key' ↔ key = key' := by
  constructor
  · exact fun h => congrArg Id.key h
  · rintro rfl
    rfl

theorem livingAt_site (s : Store (Stored T)) (key : Nat) :
    livingAt d handle s (.ofId (d.site handle key)) = livingRecord (s (d.site handle key)) :=
  if_pos rfl

theorem livingAt_record {key authored : Nat} {old : Metadata} {oldValue : T}
    (hold : s (d.site handle key) = some (old, oldValue)) (hauthored : old.succession = .createdAt authored)
    (hlive : old.removed = false) :
    livingAt d handle s (.ofId (d.site handle key)) = some (authored, old, oldValue) := by
  rw [livingAt_site, hold]
  simp only [livingRecord, hauthored, hlive, Bool.false_eq_true, if_false]

theorem livingAt_update {key : Nat} (h : ∀ other ≠ key, s' (d.site handle other) = s (d.site handle other)) :
    livingAt d handle s' = Function.update (livingAt d handle s) (.ofId (d.site handle key))
      (livingRecord (s' (d.site handle key))) := by
  funext anchor
  by_cases hanchor : anchor = .ofId (d.site handle key)
  · rw [hanchor, livingAt_site, Function.update_self]
  · rw [Function.update_of_ne hanchor, livingAt, livingAt]
    split
    · rename_i hsite
      have hne : anchor.key ≠ key := fun heq => hanchor (heq ▸ hsite)
      rw [h _ hne]
    · rfl

theorem mem_fuzzyKeys_anchor {i : Fin d.numFuzzy} {value : T} {anchor : LocalId} :
    ∀ e ∈ Catalog.fuzzyKeys i value anchor, e.anchor = anchor := by
  intro e he
  obtain ⟨field, -, rfl⟩ := List.mem_map.mp he
  rfl

variable [LinearOrder F]

structure Walked (living : LocalId → Option (Nat × Stored T)) (cat : Catalog d) : Prop where
  recency : Indexes id Key.anchor (fun anchor r => [⟨r.1, anchor⟩]) living cat.chains.recency
  lists : ∀ i, Indexes Prod.fst (fun e => e.1.anchor)
    (fun anchor r => [(Catalog.listKey i r.2.2 anchor, r.2)]) living (cat.lists i)

namespace Walked

variable {living : LocalId → Option (Nat × Stored T)} {anchor : LocalId} {instant authored : Nat}
  {record old : Stored T}

theorem mem_recency (h : Walked living cat) : ⟨instant, anchor⟩ ∈ cat.chains.recency ↔
    ∃ record, living anchor = some (instant, record) := by
  rw [h.recency.mem]
  constructor
  · rintro ⟨⟨i, record⟩, hr, hkey⟩
    cases List.mem_singleton.mp hkey
    exact ⟨record, hr⟩
  · rintro ⟨record, hr⟩
    exact ⟨(instant, record), hr, List.mem_singleton.mpr rfl⟩

theorem enter (h : Walked living cat) (hgone : living anchor = none) :
    Walked (Function.update living anchor (some (instant, record))) (cat.enter anchor instant record) where
  recency := h.recency.put hgone fun _ he => congrArg Key.anchor he
  lists i := (h.lists i).put hgone fun _ he => congrArg SecKey.anchor he

theorem move (h : Walked living cat) (hliving : living anchor = some (authored, old)) :
    Walked (Function.update living anchor (some (instant, record)))
      (cat.move anchor authored instant record old.2) := by
  have hmem : ⟨authored, anchor⟩ ∈ cat.chains.recency := h.mem_recency.mpr ⟨old, hliving⟩
  constructor
  · simp only [Catalog.move, if_pos hmem]
    exact h.recency.swap hliving (fun e he => congrArg Key.anchor he) fun e he => congrArg Key.anchor he
  · intro i
    simp only [Catalog.move, if_pos hmem, Catalog.planListMoves]
    by_cases hkey : Catalog.listKey i old.2 anchor = Catalog.listKey i record.2 anchor
    · rw [if_neg (not_not.mpr hkey)]
      exact (h.lists i).replace hliving (fun e he => congrArg SecKey.anchor he) hkey
    · rw [if_pos hkey]
      exact (h.lists i).swap hliving (fun e he => congrArg SecKey.anchor he) fun e he =>
        congrArg SecKey.anchor he

theorem leave (h : Walked living cat) (hliving : living anchor = some (authored, old)) (removedAt : Nat) :
    Walked (Function.update living anchor none) (cat.leave anchor (.createdAt authored) removedAt old.2) where
  recency := h.recency.drop hliving fun _ he => congrArg Key.anchor he
  lists i := (h.lists i).drop hliving fun _ he => congrArg SecKey.anchor he

end Walked

structure Held (living : LocalId → Option (Nat × Stored T)) (cat : Catalog d) : Prop
    extends Walked living cat where
  secondaries : ∀ i, Indexes id SecKey.anchor (fun anchor r => [Catalog.secKey i r.2.2 anchor])
    living (cat.secondaries i)
  fuzzy : ∀ i, Indexes id SecKey.anchor (fun anchor r => Catalog.fuzzyKeys i r.2.2 anchor)
    living (cat.fuzzy i)

namespace Held

variable {living : LocalId → Option (Nat × Stored T)} {anchor : LocalId} {instant authored : Nat}
  {record old : Stored T}

theorem enter (h : Held living cat) (hgone : living anchor = none) :
    Held (Function.update living anchor (some (instant, record))) (cat.enter anchor instant record) where
  toWalked := h.toWalked.enter hgone
  secondaries i := (h.secondaries i).put hgone fun _ he => congrArg SecKey.anchor he
  fuzzy i := (h.fuzzy i).putAll hgone mem_fuzzyKeys_anchor

theorem move (h : Held living cat) (hliving : living anchor = some (authored, old)) :
    Held (Function.update living anchor (some (instant, record)))
      (cat.move anchor authored instant record old.2) := by
  refine ⟨h.toWalked.move hliving, fun i => ?_, fun i => ?_⟩
  · simp only [Catalog.move, Catalog.planSecondaryRekeys]
    split
    · rename_i hkey
      exact (h.secondaries i).keepAll hliving (congrArg (fun key => [key]) hkey)
    · exact (h.secondaries i).swap hliving (fun e he => congrArg SecKey.anchor he) fun e he =>
        congrArg SecKey.anchor he
  · simp only [Catalog.move, Catalog.planFuzzyMoves]
    split
    · rename_i hkeys
      exact (h.fuzzy i).keepAll hliving hkeys
    · exact (h.fuzzy i).exchange hliving mem_fuzzyKeys_anchor mem_fuzzyKeys_anchor

theorem leave (h : Held living cat) (hliving : living anchor = some (authored, old)) (removedAt : Nat) :
    Held (Function.update living anchor none) (cat.leave anchor (.createdAt authored) removedAt old.2) where
  toWalked := h.toWalked.leave hliving removedAt
  secondaries i := (h.secondaries i).drop hliving fun _ he => congrArg SecKey.anchor he
  fuzzy i := (h.fuzzy i).dropAll hliving mem_fuzzyKeys_anchor

theorem leave_vacant (h : Held living cat) (hgone : living anchor = none) (succession : Succession)
    (removedAt : Nat) (value : T) : Held living (cat.leave anchor succession removedAt value) := by
  refine ⟨⟨?_, fun i => ?_⟩, fun i => ?_, fun i => ?_⟩
  · cases succession with
    | createdAt instant => exact h.recency.drop_vacant hgone fun _ he => congrArg Key.anchor he
    | next successor => exact h.recency
  · exact (h.lists i).drop_vacant hgone fun _ he => congrArg SecKey.anchor he
  · exact (h.secondaries i).drop_vacant hgone fun _ he => congrArg SecKey.anchor he
  · exact (h.fuzzy i).dropAll_vacant hgone mem_fuzzyKeys_anchor

end Held

structure Catalogued (d : Declaration T F) (handle : Handle) (s : Store (Stored T)) (cat : Catalog d) : Prop
    extends Walked (livingAt d handle s) cat where
  secondaries : ∀ i, Indexes id SecKey.anchor (fun anchor r => [Catalog.secKey i r.2.2 anchor])
    (livingAt d handle s) (cat.secondaries i)
  fuzzy : ∀ i, Indexes id SecKey.anchor (fun anchor r => Catalog.fuzzyKeys i r.2.2 anchor)
    (livingAt d handle s) (cat.fuzzy i)

namespace Catalogued

variable {anchor : LocalId} {instant authored : Nat} {record old : Stored T}

theorem held_iff : Catalogued d handle s cat ↔ Held (livingAt d handle s) cat :=
  ⟨fun h => ⟨h.toWalked, h.secondaries, h.fuzzy⟩, fun h => ⟨h.toWalked, h.secondaries, h.fuzzy⟩⟩

theorem enter (h : Catalogued d handle s cat) (hgone : livingAt d handle s anchor = none)
    (hs : livingAt d handle s' = Function.update (livingAt d handle s) anchor (some (instant, record))) :
    Catalogued d handle s' (cat.enter anchor instant record) := by
  rw [held_iff, hs]
  exact (held_iff.mp h).enter hgone

theorem move (h : Catalogued d handle s cat) (hliving : livingAt d handle s anchor = some (authored, old))
    (hs : livingAt d handle s' = Function.update (livingAt d handle s) anchor (some (instant, record))) :
    Catalogued d handle s' (cat.move anchor authored instant record old.2) := by
  rw [held_iff, hs]
  exact (held_iff.mp h).move hliving

theorem leave (h : Catalogued d handle s cat) (hliving : livingAt d handle s anchor = some (authored, old))
    (hs : livingAt d handle s' = Function.update (livingAt d handle s) anchor none) (removedAt : Nat) :
    Catalogued d handle s' (cat.leave anchor (.createdAt authored) removedAt old.2) := by
  rw [held_iff, hs]
  exact (held_iff.mp h).leave hliving removedAt

end Catalogued

end Living

section Versions

variable {s s' : Store (Stored T)} {slot : Nat → Id} {id : Id}

def Stands (s : Store (Stored T)) (id : Id) (living : Bool) : List (Nat × T) → Prop
  | [] => s id = none ∧ living = false
  | (instant, value) :: older => ∃ header, s id = some (header, value) ∧
      header.succession = .createdAt instant ∧ header.removed = !living ∧
      header.previous = older.head?.map Prod.fst

def Filed (s : Store (Stored T)) (slot : Nat → Id) : List (Nat × T) → Prop
  | [] => True
  | (instant, value) :: older => (∃ header, s (slot instant) = some (header, value) ∧
      header.previous = older.head?.map Prod.fst) ∧ Filed s slot older

theorem Filed.frame {versions : List (Nat × T)} (h : Filed s slot versions)
    (hframe : ∀ p ∈ versions, s' (slot p.1) = s (slot p.1)) : Filed s' slot versions := by
  induction versions with
  | nil => trivial
  | cons p older ih =>
    obtain ⟨⟨header, hslot, hprevious⟩, hrest⟩ := h
    exact ⟨⟨header, (hframe p List.mem_cons_self).trans hslot, hprevious⟩,
      ih hrest fun q hq => hframe q (List.mem_cons_of_mem _ hq)⟩

theorem Stands.frame {living : Bool} {versions : List (Nat × T)} (h : Stands s id living versions)
    (hframe : s' id = s id) : Stands s' id living versions := by
  cases versions with
  | nil => exact ⟨hframe.trans h.1, h.2⟩
  | cons p older =>
    obtain ⟨header, hstore, hrest⟩ := h
    exact ⟨header, hframe.trans hstore, hrest⟩

variable [DecidableEq T]

theorem runIn_historyFrom {hash tenant fuel : Nat} {w : World (Stored T)} {older : List (Nat × T)} {value : T}
    (hid : ∃ header, w.store id = some (header, value) ∧ header.previous = older.head?.map Prod.fst)
    (holder : Filed w.store (fun instant => archiveId hash .nonUnique instant tenant) older)
    (hfuel : older.length < fuel) :
    ∃ records : List (Stored T), records.map Prod.snd = value :: older.map Prod.snd ∧
      (historyFrom hash .nonUnique tenant fuel id).runIn w = (.ok (records.map .ok), w) := by
  induction older generalizing id value fuel with
  | nil =>
    obtain ⟨header, hstore, hprevious⟩ := hid
    obtain ⟨fuel, rfl⟩ := Nat.exists_eq_succ_of_ne_zero (Nat.ne_of_gt hfuel)
    refine ⟨[(header, value)], rfl, ?_⟩
    rw [historyFrom, Engine.runIn_bind_ok (Engine.runIn_getOf _ _ _), hstore]
    simp only [hprevious]
    rfl
  | cons p older ih =>
    obtain ⟨header, hstore, hprevious⟩ := hid
    obtain ⟨fuel, rfl⟩ := Nat.exists_eq_succ_of_ne_zero (Nat.ne_of_gt (Nat.zero_lt_of_lt hfuel))
    obtain ⟨records, hvalues, hrun⟩ := ih holder.1 holder.2 (Nat.lt_of_succ_lt_succ hfuel)
    refine ⟨(header, value) :: records, congrArg (value :: ·) hvalues, ?_⟩
    rw [historyFrom, Engine.runIn_bind_ok (Engine.runIn_getOf _ _ _), hstore]
    simp only [hprevious]
    exact Engine.runIn_bind_ok hrun

end Versions

section Kept

variable {s s' : Store (Stored T)} {cat : Catalog d} {versions : Nat → List (Nat × T)} {living : Nat → Bool}
  {key instant : Nat} {value : T}

theorem site_ne_slot (key instant : Nat) : d.site handle key ≠ d.kind.slot handle instant := by
  intro h
  have hflag := congrArg (fun id => (LocalId.ofId id).flag) h
  simp only [Declaration.site, keyedId, Kind.slot, archiveId_flag, Id.new_flag, Shape.anchorFlag] at hflag
  cases hflag

structure Wrote (d : Declaration T F) (handle : Handle) (s s' : Store (Stored T)) (key : Nat)
    (versions : List (Nat × T)) (instant : Nat) (header : Metadata) (value : T) : Prop where
  anchor : s' (d.site handle key) = some (header, value)
  authored : header.succession = .createdAt instant
  live : header.removed = false
  previous : header.previous = versions.head?.map Prod.fst
  other : ∀ other ≠ key, s' (d.site handle other) = s (d.site handle other)
  slot : ∀ p ∈ versions.head?, ∃ header, s' (d.kind.slot handle p.1) = some (header, p.2) ∧
    header.previous = versions.tail.head?.map Prod.fst
  slots : ∀ i, (∀ p ∈ versions.head?, p.1 ≠ i) → s' (d.kind.slot handle i) = s (d.kind.slot handle i)

theorem Wrote.livingAt {old : List (Nat × T)} {header : Metadata}
    (h : Wrote d handle s s' key old instant header value) :
    livingAt d handle s' = Function.update (livingAt d handle s) (.ofId (d.site handle key))
      (some (instant, header, value)) := by
  rw [livingAt_update h.other, h.anchor]
  simp only [livingRecord, h.authored, h.live, Bool.false_eq_true, if_false]

variable [LinearOrder F]

-- A keyed collection, given the versions under each key and which keys are living.
structure Kept (d : Declaration T F) (handle : Handle) (s : Store (Stored T)) (cat : Catalog d)
    (versions : Nat → List (Nat × T)) (living : Nat → Bool) : Prop where
  anchors : ∀ key, Stands s (d.site handle key) (living key) (versions key)
  archives : ∀ key, Filed s (d.kind.slot handle) (versions key).tail
  below : ∀ key, ∀ p ∈ versions key, p.1 ≤ cat.chains.instantFloor
  apart : ∀ key key', ∀ p ∈ versions key, ∀ q ∈ versions key', p.1 = q.1 → key = key'
  falling : ∀ key, (versions key).Pairwise fun p q => q.1 < p.1
  catalogued : Catalogued d handle s cat
  removals : Ascending id cat.chains.removals

namespace Kept

theorem fresh (h : Kept d handle s cat versions living) (hinstant : cat.chains.instantFloor < instant)
    {other : Nat} {p : Nat × T} (hp : p ∈ versions other) : p.1 < instant :=
  (h.below other p hp).trans_lt hinstant

theorem mem_written {other : Nat} {p : Nat × T}
    (hp : p ∈ Function.update versions key ((instant, value) :: versions key) other) :
    (other = key ∧ p = (instant, value)) ∨ p ∈ versions other := by
  by_cases hkey : other = key
  · subst hkey
    rw [Function.update_self] at hp
    exact (List.mem_cons.mp hp).imp (fun heq => ⟨rfl, heq⟩) fun hmem => hmem
  · rw [Function.update_of_ne hkey] at hp
    exact .inr hp

theorem written (h : Kept d handle s cat versions living) {cat' : Catalog d} {header : Metadata}
    (hinstant : cat.chains.instantFloor < instant)
    (hwrote : Wrote d handle s s' key (versions key) instant header value)
    (hcatalogued : Catalogued d handle s' cat') (hremovals : cat'.chains.removals = cat.chains.removals) :
    Kept d handle s' cat' (Function.update versions key ((instant, value) :: versions key))
      (Function.update living key true) := by
  have hfloor : instant ≤ cat'.chains.instantFloor := by
    have hliving := (congrFun hwrote.livingAt _).trans (Function.update_self ..)
    have hmem : ⟨instant, .ofId (d.site handle key)⟩ ∈ cat'.chains.recency :=
      (hcatalogued.recency.mem_living hliving rfl).mpr (List.mem_singleton.mpr rfl)
    exact instant_le_floor hcatalogued.recency.ascending hmem
  constructor
  · intro other
    by_cases hkey : other = key
    · subst hkey
      rw [Function.update_self, Function.update_self]
      exact ⟨header, hwrote.anchor, hwrote.authored, hwrote.live, hwrote.previous⟩
    · rw [Function.update_of_ne hkey, Function.update_of_ne hkey]
      exact (h.anchors other).frame (hwrote.other other hkey)
  · intro other
    by_cases hkey : other = key
    · subst hkey
      rw [Function.update_self, List.tail_cons]
      have harchives := h.archives other
      have hfalling := h.falling other
      cases hversions : versions other with
      | nil => trivial
      | cons p older =>
        rw [hversions] at hwrote harchives hfalling
        refine ⟨hwrote.slot p rfl, harchives.frame fun q hq => hwrote.slots _ fun p' hp' => ?_⟩
        cases hp'
        exact ((List.pairwise_cons.mp hfalling).1 q hq).ne'
    · rw [Function.update_of_ne hkey]
      refine (h.archives other).frame fun p hp => hwrote.slots _ fun q hq heq => ?_
      exact hkey (h.apart _ _ p (List.mem_of_mem_tail hp) q (List.mem_of_mem_head? hq) heq.symm)
  · intro other p hp
    rcases mem_written hp with ⟨-, rfl⟩ | hp
    · exact hfloor
    · exact (h.fresh hinstant hp).le.trans hfloor
  · intro k k' p hp q hq heq
    rcases mem_written hp with ⟨hk, rfl⟩ | hp <;> rcases mem_written hq with ⟨hk', rfl⟩ | hq
    · exact hk.trans hk'.symm
    · exact ((h.fresh hinstant hq).ne heq.symm).elim
    · exact ((h.fresh hinstant hp).ne heq).elim
    · exact h.apart k k' p hp q hq heq
  · intro other
    by_cases hkey : other = key
    · subst hkey
      rw [Function.update_self]
      exact List.pairwise_cons.mpr ⟨fun p hp => h.fresh hinstant hp, h.falling other⟩
    · rw [Function.update_of_ne hkey]
      exact h.falling other
  · exact hcatalogued
  · rw [hremovals]
    exact h.removals

section Inserts

variable {w : World (Stored T)} {old : Metadata} {oldValue : T} {authored : Nat}

theorem versions_vacant (h : Kept d handle s cat versions living) (hvacant : s (d.site handle key) = none) :
    versions key = [] := by
  have hstands := h.anchors key
  cases hversions : versions key with
  | nil => rfl
  | cons p older =>
    rw [hversions] at hstands
    obtain ⟨header, hstore, -⟩ := hstands
    rw [hvacant] at hstore
    cases hstore

theorem versions_record (h : Kept d handle s cat versions living)
    (hold : s (d.site handle key) = some (old, oldValue)) (hauthored : old.succession = .createdAt authored) :
    ∃ older, versions key = (authored, oldValue) :: older ∧ old.previous = older.head?.map Prod.fst := by
  have hstands := h.anchors key
  cases hversions : versions key with
  | nil =>
    rw [hversions, Stands, hold] at hstands
    cases hstands.1
  | cons p older =>
    rw [hversions] at hstands
    obtain ⟨header, hstore, hsuccession, -, hprevious⟩ := hstands
    rw [hold] at hstore
    cases hstore
    rw [hauthored] at hsuccession
    cases hsuccession
    exact ⟨older, rfl, hprevious⟩

theorem wrote_first (h : Kept d handle s cat versions living) (instant : Nat) (value : T)
    (hvacant : s (d.site handle key) = none) :
    Wrote d handle s (Site.first ⟨s, cat.chains⟩ handle (d.site handle key) instant value) key (versions key)
      instant (handle.firstMeta instant) value := by
  have hversions := h.versions_vacant hvacant
  refine ⟨Function.update_self .., rfl, rfl, ?_, ?_, ?_, ?_⟩
  · rw [hversions]
    rfl
  · exact fun other hne => Function.update_of_ne (fun heq => hne (site_inj.mp heq)) _ _
  · simp [hversions]
  · exact fun i _ => Function.update_of_ne (site_ne_slot key i).symm _ _

theorem wrote_next (h : Kept d handle s cat versions living) (instant : Nat) (value : T) (revives : Bool)
    (hold : s (d.site handle key) = some (old, oldValue)) (hauthored : old.succession = .createdAt authored)
    (hlive : revives = true ∨ old.removed = false) :
    Wrote d handle s (Site.next ⟨s, cat.chains⟩ (d.kind.slot handle authored) (d.site handle key)
      (old, oldValue) instant (handle.nextMeta revives old authored instant) value) key (versions key)
      instant (handle.nextMeta revives old authored instant) value := by
  obtain ⟨older, hversions, hprevious⟩ := h.versions_record hold hauthored
  rw [hversions]
  refine ⟨Function.update_self .., rfl, ?_, rfl, ?_, ?_, ?_⟩
  · rcases hlive with rfl | hlive
    · rfl
    · simp [Handle.nextMeta, hlive]
  · intro other hne
    rw [Site.next, Function.update_of_ne (fun heq => hne (site_inj.mp heq)),
      Function.update_of_ne (site_ne_slot other authored)]
  · intro p hp
    cases hp
    rw [Site.next, Function.update_of_ne (site_ne_slot key authored).symm, Function.update_self]
    exact ⟨_, rfl, hprevious⟩
  · intro i hi
    have hne : d.kind.slot handle i ≠ d.kind.slot handle authored :=
      fun heq => hi _ rfl (archiveId_inj.mp heq).symm
    rw [Site.next, Function.update_of_ne (site_ne_slot key i).symm, Function.update_of_ne hne]

theorem inserted {after : Catalog d} {store : Store (Stored T)}
    (h : Kept d handle w.store cat versions living) (hlast : cat.chains.instantFloor < 2 ^ 64 - 1)
    (hinsert : Catalog.Inserted handle cat w (d.site handle key) value after store) :
    Kept d handle store after
      (Function.update versions key ((w.minted cat.chains.instantFloor, value) :: versions key))
      (Function.update living key true) := by
  have hinstant : cat.chains.instantFloor < w.minted cat.chains.instantFloor := World.floor_lt_minted hlast
  cases hinsert with
  | first hvacant =>
    have hwrote := h.wrote_first (w.minted cat.chains.instantFloor) value hvacant
    refine h.written hinstant hwrote (h.catalogued.enter ?_ hwrote.livingAt) rfl
    rw [livingAt_site, hvacant]
    rfl
  | revived hold hauthored hdead =>
    have hwrote := h.wrote_next (w.minted cat.chains.instantFloor) value true hold hauthored (.inl rfl)
    refine h.written hinstant hwrote (h.catalogued.enter ?_ hwrote.livingAt) rfl
    rw [livingAt_site, hold]
    simp [livingRecord, hauthored, hdead]
  | saved hold hauthored hlive =>
    have hwrote := h.wrote_next (w.minted cat.chains.instantFloor) value false hold hauthored (.inr hlive)
    refine h.written hinstant hwrote
      (h.catalogued.move (livingAt_record hold hauthored hlive) hwrote.livingAt) ?_
    simp only [Catalog.move]
    split <;> rfl

theorem removed (h : Kept d handle s cat versions living) (hinstant : cat.chains.instantFloor < instant)
    (hold : s (d.site handle key) = some (old, oldValue)) (hauthored : old.succession = .createdAt authored)
    (hlive : old.removed = false) :
    Kept d handle (Function.update s (d.site handle key) (some ({ old with removed := true }, oldValue)))
      (cat.leave (.ofId (d.site handle key)) old.succession instant oldValue) versions
      (Function.update living key false) := by
  obtain ⟨older, hversions, hprevious⟩ := h.versions_record hold hauthored
  have hother : ∀ other ≠ key, Function.update s (d.site handle key)
      (some ({ old with removed := true }, oldValue)) (d.site handle other) = s (d.site handle other) :=
    fun other hne => Function.update_of_ne (fun heq => hne (site_inj.mp heq)) _ _
  have hgone : livingAt d handle (Function.update s (d.site handle key)
      (some ({ old with removed := true }, oldValue))) =
      Function.update (livingAt d handle s) (.ofId (d.site handle key)) none := by
    rw [livingAt_update hother, Function.update_self]
    simp only [livingRecord, hauthored, if_true]
  have hremovals : Ascending id (chainInsert ⟨instant, .ofId (d.site handle key)⟩ cat.chains.removals) :=
    ascending_put h.removals _
  have hlogged : ⟨instant, .ofId (d.site handle key)⟩ ∈
      chainInsert ⟨instant, .ofId (d.site handle key)⟩ cat.chains.removals :=
    List.mem_append_right _ List.mem_cons_self
  have hfloor : instant ≤
      (cat.leave (.ofId (d.site handle key)) old.succession instant oldValue).chains.instantFloor :=
    (instant_le_last hremovals hlogged).trans (le_max_right _ _)
  constructor
  · intro other
    by_cases hkey : other = key
    · subst hkey
      rw [Function.update_self, hversions]
      exact ⟨_, Function.update_self .., hauthored, rfl, hprevious⟩
    · rw [Function.update_of_ne hkey]
      exact (h.anchors other).frame (hother other hkey)
  · exact fun other => (h.archives other).frame fun p _ => Function.update_of_ne (site_ne_slot key p.1).symm _ _
  · exact fun other p hp => (h.fresh hinstant hp).le.trans hfloor
  · exact h.apart
  · exact h.falling
  · have hleave := h.catalogued.leave (livingAt_record hold hauthored hlive) hgone instant
    rwa [← hauthored] at hleave
  · exact hremovals

end Inserts

end Kept

end Kept

end WaveDb.Collection
