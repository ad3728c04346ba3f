import WaveDb.Collection.Lives

-- A client's copy of a collection: walks fill it, and it answers those that do not
-- reach the node.
namespace WaveDb.Client.Warm

open WaveDb.Lib WaveDb.Core WaveDb.Collection

variable {T F : Type} {d : Declaration T F}

section Model

abbrev Frame (T : Type) := Id × Stored T

inductive Walk (d : Declaration T F)
  | all
  | listed (i : Fin d.numLists)

variable [DecidableEq T] [LinearOrder F]

-- The copy is made for its first record. A mirror that fails is passed over.
-- Nothing is minted, so the clock does not matter.
def mirrorRecordMeta (handle : Handle) (cache : Option (Whole d)) (frame : Frame T) : Option (Whole d) :=
  let y := cache.getD ⟨fun _ => none, .empty d⟩
  match (y.catalog.adoptWith handle frame.1 frame.2.1 frame.2.2).runIn ⟨y.store, fun _ => 0, 0⟩ with
  | (.ok catalog, w) => some ⟨w.store, catalog⟩
  | (_, w) => some ⟨w.store, y.catalog⟩

def absorb (handle : Handle) (cache : Option (Whole d)) (frames : List (Frame T)) : Option (Whole d) :=
  frames.foldl (mirrorRecordMeta handle) cache

def walk (tenant : Nat) (x : Whole d) : Walk d → Option (List (Frame T))
  | .all =>
    match (x.catalog.all tenant).runIn ⟨x.store, fun _ => 0, 0⟩ with
    | (.ok records, _) => some records
    | _ => none
  | .listed i => some (x.catalog.listed tenant i)

def Sent (d : Declaration T F) (tenant : Nat) (frame : Frame T) : Prop :=
  ∃ (x : Whole d) (living : Living T) (instant : Nat), Built d tenant x living ∧
    frame.1.tenant = tenant ∧ living (.ofId frame.1) = some (instant, frame.2)

-- The copies that walks leave, whatever happens at the node meanwhile.
inductive Fed (d : Declaration T F) (handle : Handle) : Option (Whole d) → Prop
  | cold : Fed d handle none
  | walk {cache : Option (Whole d)} {frames : List (Frame T)} (h : Fed d handle cache)
      (sent : ∀ frame ∈ frames, Sent d handle.tenant frame) : Fed d handle (absorb handle cache frames)

end Model

variable {tenant instant : Nat} {x y : Whole d} {living : Living T} {id : Id} {header : Metadata} {value : T}

section Frames

-- A record as the node keeps it: at an anchor, and under its natural key.
structure Proper (d : Declaration T F) (handle : Handle) (instant : Nat) (frame : Frame T) : Prop where
  tenant : frame.1.tenant = handle.tenant
  flag : (LocalId.ofId frame.1).flag = false
  live : frame.2.1.removed = false
  created : frame.2.1.succession = .createdAt instant
  keyed : ∀ a ∈ keyedAnchor d.kind handle frame.2.2, a = frame.1

theorem keyed_effect {kind : Kind T} {handle : Handle} {s site : Site T} {request : Request T}
    (h : Effect kind handle s instant request (.saved id header value) site) :
    ∀ a ∈ keyedAnchor kind handle value, a = id := by
  cases h with
  | insert hkind hid => simp [keyedAnchor, hkind]
  | enter hid | revive hid => simp [hid]
  | first hid | next hid => exact hid

variable [DecidableEq T] [LinearOrder F]

theorem keyed_perform {handle : Handle} {request : Request T} {w w' : World (Stored T)} {cat cat' : Catalog d}
    (hrun : (cat.perform handle request).runIn w = (.ok (cat', some (.saved id header value)), w'))
    (hlast : w'.last < 2 ^ 64 - 1) : ∀ a ∈ keyedAnchor d.kind handle value, a = id := by
  have hchains := runIn_onChains (cat.perform handle request) w
  rw [onChains_perform, hrun] at hchains
  have hdone := perform_done request (by rw [hchains]; exact hlast)
  generalize (Collection.perform d.kind handle cat.chains request).runIn w = result at hdone hchains
  cases hdone with
  | refused => cases hchains
  | idle => simp at hchains
  | effect _ _ heffect =>
    simp only [Prod.mk.injEq, Outcome.ok.injEq, Option.some.injEq] at hchains
    obtain ⟨⟨-, rfl⟩, -⟩ := hchains
    exact keyed_effect heffect

theorem keyed_built {handle : Handle} (h : Built d handle.tenant x living) {a : LocalId}
    (hliving : living a = some (instant, header, value)) :
    ∀ b ∈ keyedAnchor d.kind handle value, b = a.toId handle.tenant := by
  generalize htenant : handle.tenant = tenant at h
  induction h generalizing instant header value with
  | create => cases hliving
  | @operate x living w writer request h hwriter hrequest hworld hlast ih =>
    rcases hrun : (x.catalog.perform writer request).runIn w with ⟨⟨cat', _ | change⟩ | e | _, w'⟩ <;>
      rw [hrun] at hliving hlast
    · exact ih hliving
    · cases change with
      | removed id at' =>
        change Function.update living (.ofId id) none a = _ at hliving
        by_cases ha : a = .ofId id
        · rw [ha, Function.update_self] at hliving
          cases hliving
        · rw [Function.update_of_ne ha] at hliving
          exact ih hliving
      | saved id newer newValue =>
        change Function.update living (.ofId id) _ a = _ at hliving
        by_cases ha : a = .ofId id
        · rw [ha, Function.update_self] at hliving
          obtain ⟨_, -, heq⟩ := Option.map_eq_some_iff.mp hliving
          cases heq
          intro b hb
          have hsame : keyedAnchor d.kind writer value = some b := by
            rw [← hb, keyedAnchor, keyedAnchor, hwriter, htenant]
          obtain rfl := keyed_perform hrun hlast b hsame
          rw [ha, toId_ofId ((keyedAnchor_flag hsame).2.1.trans hwriter)]
        · rw [Function.update_of_ne ha] at hliving
          exact ih hliving
    · exact ih hliving
    · exact ih hliving

theorem proper_built {handle : Handle} (h : Built d handle.tenant x living) {frame : Frame T}
    (htenant : frame.1.tenant = handle.tenant) (hliving : living (.ofId frame.1) = some (instant, frame.2)) :
    Proper d handle instant frame := by
  obtain ⟨id, header, value⟩ := frame
  have hkeyed := keyed_built h hliving
  rw [toId_ofId htenant] at hkeyed
  rw [h.faithful.anchors] at hliving
  split at hliving
  · cases hliving
  · rename_i hflag
    obtain ⟨-, hcreated, hlive⟩ := livingRecord_eq_some.mp hliving
    exact ⟨htenant, Bool.eq_false_of_not_eq_true hflag, hlive, hcreated, hkeyed⟩

end Frames

section Copy

variable [LinearOrder F]

-- The copy holds the given records, and nothing in it was ever removed.
structure Mirrors (tenant : Nat) (y : Whole d) (living : Living T) : Prop where
  held : Held living y.catalog
  anchors : ∀ a : LocalId, living a = if a.flag then none else livingRecord (y.store (a.toId tenant))
  alive : ∀ (a : LocalId) (stored : Stored T), a.flag = false → y.store (a.toId tenant) = some stored →
    stored.1.removed = false ∧ ∃ instant, stored.1.succession = .createdAt instant

theorem mirrors_cold : Mirrors tenant (⟨fun _ => none, .empty d⟩ : Whole d) fun _ => none where
  held := (Faithful.empty fun _ => rfl : Faithful tenant (⟨fun _ => none, .empty d⟩ : Whole d) _).held
  anchors a := by simp [livingRecord]
  alive _ _ _ h := by cases h

variable {handle : Handle} {catalog : Catalog d} {store : Store (Stored T)}

theorem Mirrors.written (h : Mirrors handle.tenant y living) (hproper : Proper d handle instant (id, header, value))
    (hself : store id = some (header, value))
    (hother : ∀ b : LocalId, b.flag = false → b ≠ .ofId id →
      store (b.toId handle.tenant) = y.store (b.toId handle.tenant))
    (hheld : Held (Function.update living (.ofId id) (some (instant, header, value))) catalog) :
    Mirrors handle.tenant ⟨store, catalog⟩
      (Function.update living (.ofId id) (some (instant, header, value))) := by
  have hid := toId_ofId hproper.tenant
  have hrecord : livingRecord (some (header, value)) = some (instant, header, value) :=
    livingRecord_eq_some.mpr ⟨rfl, hproper.created, hproper.live⟩
  refine ⟨hheld, fun b => ?_, fun b stored hb hstored => ?_⟩
  · change _ = if b.flag then none else livingRecord (store (b.toId handle.tenant))
    by_cases hba : b = .ofId id
    · rw [hba, Function.update_self, hproper.flag, hid, hself, hrecord]
      rfl
    · rw [Function.update_of_ne hba, h.anchors]
      cases hb : b.flag with
      | true => rfl
      | false => rw [hother b hb hba]
  · by_cases hba : b = .ofId id
    · rw [hba] at hstored
      cases hself.symm.trans ((congrArg store hid).symm.trans hstored)
      exact ⟨hproper.live, instant, hproper.created⟩
    · exact h.alive b stored hb ((hother b hb hba).symm.trans hstored)

variable [DecidableEq T] {w : World (Stored T)}

theorem runIn_insertWithMeta (hcreated : header.succession = .createdAt instant) :
    (catalog.insertWithMeta id header value).runIn w =
      (.ok (catalog.enter (.ofId id) instant (header, value), .saved id header value),
        w.holding (Function.update w.store id (some (header, value)))) := by
  rw [Catalog.insertWithMeta]
  simp only [hcreated]
  exact Engine.runIn_bind_ok (Engine.runIn_apply rfl)

theorem runIn_saveWithMeta {old : Metadata} {oldValue : T} {authored : Nat}
    (hold : w.store id = some (old, oldValue)) (hauthored : old.succession = .createdAt authored)
    (hcreated : header.succession = .createdAt instant)
    (hkeyed : ∀ a ∈ keyedAnchor d.kind handle value, a = id) :
    (catalog.saveWithMeta handle id header value).runIn w =
      (.ok (catalog.move (.ofId id) authored instant (header, value) oldValue, .saved id header value),
        w.holding (Site.replaced ⟨w.store, catalog.chains⟩ (d.kind.slot handle authored) id (old, oldValue)
          authored instant header value)) := by
  have hauthor : Authors (savePlan d.kind handle catalog.chains id (some header) false)
      (max authored catalog.chains.instantFloor)
      ((savePlan d.kind handle catalog.chains id (some header) false).nextMeta old authored) w header w :=
    runIn_author_imposed rfl _ _
  have hplan := runIn_planChainedSave_chained value hold hauthored hauthor hcreated
  have hmove : (catalog.planReindex (some (authored, oldValue)) id header value).runIn w =
      (.ok (catalog.move (.ofId id) authored instant (header, value) oldValue), w) := by
    simp only [Catalog.planReindex, hcreated]
    rfl
  have happly := runIn_apply_nextBatch hold catalog.chains d.hash (d.kind.slot handle authored) authored instant
    header value rfl
  rw [Catalog.saveWithMeta, Catalog.savePlanned, if_neg (not_foreign_iff.mpr hkeyed),
    Engine.runIn_bind_ok hplan, Engine.runIn_bind_ok hmove]
  exact Engine.runIn_bind_ok happly

theorem Mirrors.adopts (h : Mirrors handle.tenant y living) (hproper : Proper d handle instant (id, header, value)) :
    ∃ y', mirrorRecordMeta handle (some y) (id, header, value) = some y' ∧
      Mirrors handle.tenant y' (Function.update living (.ofId id) (some (instant, header, value))) := by
  have hid := toId_ofId hproper.tenant
  have hliving := h.anchors (.ofId id)
  rw [hproper.flag, hid] at hliving
  cases hstore : y.store id with
  | none =>
    rw [hstore] at hliving
    refine ⟨⟨Function.update y.store id (some (header, value)),
      y.catalog.enter (.ofId id) instant (header, value)⟩, ?_, h.written hproper
        (Function.update_self ..) (fun b _ hb => Function.update_of_ne (ofId_toId_ne hb) _ _) (h.held.enter hliving)⟩
    have hrun : (y.catalog.adoptWith handle id header value).runIn ⟨y.store, fun _ => 0, 0⟩ =
        (.ok (y.catalog.enter (.ofId id) instant (header, value)),
          ⟨Function.update y.store id (some (header, value)), fun _ => 0, 0⟩) := by
      rw [Catalog.adoptWith, Engine.runIn_bind_ok (runIn_anchor _ _)]
      simp only [hstore]
      exact Engine.runIn_bind_ok (runIn_insertWithMeta hproper.created)
    simp only [mirrorRecordMeta, Option.getD_some, hrun]
  | some stored =>
    obtain ⟨old, oldValue⟩ := stored
    obtain ⟨hold, authored, hauthored⟩ := h.alive (.ofId id) (old, oldValue) hproper.flag
      ((congrArg y.store hid).trans hstore)
    have hrecord : livingRecord (some (old, oldValue)) = some (authored, old, oldValue) :=
      livingRecord_eq_some.mpr ⟨rfl, hauthored, hold⟩
    rw [hstore, hrecord] at hliving
    have hanchor : (anchor d.kind id).runIn (⟨y.store, fun _ => 0, 0⟩ : World (Stored T)) =
        (.ok (.living old oldValue), ⟨y.store, fun _ => 0, 0⟩) := by
      rw [runIn_anchor]
      simp [hstore, Metadata.isLive, show old.removed = false from hold]
    by_cases hsame : old = header ∧ oldValue = value
    · obtain ⟨rfl, rfl⟩ := hsame
      have hinstant : authored = instant := by
        cases hauthored.symm.trans hproper.created
        rfl
      have hkept : Function.update living (.ofId id) (some (instant, old, oldValue)) = living := by
        rw [← hinstant, ← show living (.ofId id) = some (authored, old, oldValue) from hliving,
          Function.update_eq_self]
      refine ⟨y, ?_, by rw [hkept]; exact h⟩
      have hrun : (y.catalog.adoptWith handle id old oldValue).runIn ⟨y.store, fun _ => 0, 0⟩ =
          (.ok y.catalog, ⟨y.store, fun _ => 0, 0⟩) := by
        rw [Catalog.adoptWith, Engine.runIn_bind_ok hanchor]
        dsimp only
        rw [if_pos ⟨rfl, rfl⟩]
        rfl
      simp only [mirrorRecordMeta, Option.getD_some, hrun]
    · refine ⟨⟨Site.replaced ⟨y.store, y.catalog.chains⟩ (d.kind.slot handle authored) id (old, oldValue) authored
        instant header value, y.catalog.move (.ofId id) authored instant (header, value) oldValue⟩, ?_,
        h.written hproper ?_ (fun b hb hne => ?_) (h.held.move hliving)⟩
      · have hrun : (y.catalog.adoptWith handle id header value).runIn ⟨y.store, fun _ => 0, 0⟩ =
            (.ok (y.catalog.move (.ofId id) authored instant (header, value) oldValue),
              ⟨Site.replaced ⟨y.store, y.catalog.chains⟩ (d.kind.slot handle authored) id (old, oldValue) authored
                instant header value, fun _ => 0, 0⟩) := by
          rw [Catalog.adoptWith, Engine.runIn_bind_ok hanchor]
          dsimp only
          rw [if_neg hsame]
          exact Engine.runIn_bind_ok (runIn_saveWithMeta hstore hauthored hproper.created hproper.keyed)
        simp only [mirrorRecordMeta, Option.getD_some, hrun]
      · rw [Site.replaced]
        split_ifs <;> exact Function.update_self ..
      · have hslot : b.toId handle.tenant ≠ d.kind.slot handle authored := by
          intro heq
          have hflag := slot_flag d.kind handle authored
          rw [← heq] at hflag
          exact Bool.false_ne_true (hb.symm.trans hflag)
        rw [Site.replaced]
        split_ifs
        · rw [Site.next, Function.update_of_ne (ofId_toId_ne hne), Function.update_of_ne hslot]
        · exact Function.update_of_ne (ofId_toId_ne hne) _ _

end Copy

-- A walk reads the living records and nothing else.
section Answers

variable [LinearOrder F]

structure Shown (tenant : Nat) (x : Whole d) (living : Living T) : Prop where
  walked : Walked living x.catalog
  stored : ∀ {a : LocalId} {r : Nat × Stored T}, living a = some r → x.store (a.toId tenant) = some r.2

theorem Mirrors.shown (h : Mirrors tenant y living) : Shown tenant y living where
  walked := h.held.toWalked
  stored := by
    intro a r hliving
    rw [h.anchors] at hliving
    split at hliving
    · cases hliving
    · exact (livingRecord_eq_some.mp hliving).1

def shownAt (tenant : Nat) (living : Living T) (key : Key) : Option (Frame T) :=
  (living key.anchor).map fun r => (key.anchor.toId tenant, r.2)

variable [DecidableEq T]

theorem Shown.resolve (h : Shown tenant x living) {hash : Nat} {keys : List Key}
    (hkeys : ∀ key ∈ keys, ∃ r, living key.anchor = some r) :
    (Catalog.resolve hash tenant keys).runIn ⟨x.store, fun _ => 0, 0⟩ =
      (.ok (keys.filterMap (shownAt tenant living)), ⟨x.store, fun _ => 0, 0⟩) := by
  induction keys with
  | nil => rfl
  | cons key keys ih =>
    obtain ⟨r, hr⟩ := hkeys key List.mem_cons_self
    have hkey : shownAt tenant living key = some (key.anchor.toId tenant, r.2) := by rw [shownAt, hr]; rfl
    rw [Catalog.resolve, Engine.runIn_bind_ok (Engine.runIn_getOf _ _ _), List.filterMap_cons_some hkey]
    simp only [h.stored hr]
    exact Engine.runIn_bind_ok (ih fun key hkey => hkeys key (List.mem_cons_of_mem _ hkey))

theorem Shown.all (h : Shown tenant x living) :
    walk tenant x .all = some (x.catalog.chains.recency.reverse.filterMap (shownAt tenant living)) := by
  have hrun : (x.catalog.all tenant).runIn ⟨x.store, fun _ => 0, 0⟩ =
      (.ok (x.catalog.chains.recency.reverse.filterMap (shownAt tenant living)), ⟨x.store, fun _ => 0, 0⟩) := by
    refine h.resolve fun key hkey => ?_
    obtain ⟨r, hr, -⟩ := (h.walked.recency.mem key).mp (List.mem_reverse.mp hkey)
    exact ⟨r, hr⟩
  simp only [walk, hrun]

theorem Shown.walk_eq (hx : Shown tenant x living) (hy : Shown tenant y living) (kind : Walk d) :
    walk tenant x kind = walk tenant y kind := by
  cases kind with
  | all => rw [hx.all, hy.all, hx.walked.recency.unique hy.walked.recency]
  | listed i => rw [walk, walk, Catalog.listed, Catalog.listed, (hx.walked.lists i).unique (hy.walked.lists i)]

theorem Shown.mem_walk (h : Shown tenant x living) {kind : Walk d} {frames : List (Frame T)}
    (hwalk : walk tenant x kind = some frames) {frame : Frame T} :
    frame ∈ frames ↔ frame.1.tenant = tenant ∧ ∃ instant, living (.ofId frame.1) = some (instant, frame.2) := by
  cases kind with
  | all =>
    cases h.all.symm.trans hwalk
    rw [List.mem_filterMap]
    constructor
    · rintro ⟨key, -, hkey⟩
      obtain ⟨⟨instant, stored⟩, hr, rfl⟩ := Option.map_eq_some_iff.mp hkey
      exact ⟨rfl, instant, hr⟩
    · rintro ⟨htenant, instant, hr⟩
      refine ⟨⟨instant, .ofId frame.1⟩, List.mem_reverse.mpr (h.walked.mem_recency.mpr ⟨_, hr⟩), ?_⟩
      rw [shownAt, hr, Option.map_some, toId_ofId htenant]
  | listed i =>
    cases hwalk
    rw [Catalog.listed, List.mem_map]
    constructor
    · rintro ⟨entry, hentry, rfl⟩
      obtain ⟨r, hr, hkey⟩ := ((h.walked.lists i).mem entry).mp hentry
      rw [List.mem_singleton.mp hkey] at hr ⊢
      exact ⟨rfl, r.1, hr⟩
    · rintro ⟨htenant, instant, hr⟩
      refine ⟨(Catalog.listKey i frame.2.2 (.ofId frame.1), frame.2), ((h.walked.lists i).mem _).mpr
        ⟨_, hr, List.mem_singleton.mpr rfl⟩, Prod.ext (toId_ofId htenant) rfl⟩

end Answers

section Runs

variable [DecidableEq T] [LinearOrder F] {handle : Handle} {cache : Option (Whole d)} {frames : List (Frame T)}

def noted (living : Living T) (frame : Frame T) : Living T :=
  Function.update living (.ofId frame.1) (livingRecord (some frame.2))

omit [DecidableEq T] [LinearOrder F] in
theorem foldl_noted (living : Living T) {target : Living T}
    (h : ∀ frame ∈ frames, livingRecord (some frame.2) = target (.ofId frame.1)) (a : LocalId) : frames.foldl noted living a = target a ∨
      frames.foldl noted living a = living a ∧ ∀ frame ∈ frames, .ofId frame.1 ≠ a := by
  induction frames generalizing living with
  | nil => exact .inr ⟨rfl, by simp⟩
  | cons frame frames ih =>
    obtain ⟨hframe, hframes⟩ := List.forall_mem_cons.mp h
    rcases ih (noted living frame) hframes with hdone | ⟨hkept, hothers⟩
    · exact .inl hdone
    · rw [List.foldl_cons, hkept, noted]
      by_cases ha : a = .ofId frame.1
      · rw [ha, Function.update_self]
        exact .inl hframe
      · rw [Function.update_of_ne ha]
        exact .inr ⟨rfl, List.forall_mem_cons.mpr ⟨Ne.symm ha, hothers⟩⟩

theorem Mirrors.absorbs (h : Mirrors handle.tenant (cache.getD ⟨fun _ => none, .empty d⟩) living)
    (hproper : ∀ frame ∈ frames, ∃ instant, Proper d handle instant frame) :
    Mirrors handle.tenant ((absorb handle cache frames).getD ⟨fun _ => none, .empty d⟩)
      (frames.foldl noted living) := by
  induction frames generalizing cache living with
  | nil => exact h
  | cons frame frames ih =>
    obtain ⟨⟨instant, hframe⟩, hframes⟩ := List.forall_mem_cons.mp hproper
    obtain ⟨y, hy, hmirrors⟩ := h.adopts hframe
    rw [← livingRecord_eq_some.mpr ⟨rfl, hframe.created, hframe.live⟩] at hmirrors
    change Mirrors _ ((absorb handle (mirrorRecordMeta handle cache frame) frames).getD _) _
    rw [show mirrorRecordMeta handle cache frame = some y from hy]
    refine ih ?_ hframes
    exact hmirrors

theorem Fed.mirrors (h : Fed d handle cache) :
    ∃ living, Mirrors handle.tenant (cache.getD ⟨fun _ => none, .empty d⟩) living := by
  induction h with
  | cold => exact ⟨_, mirrors_cold⟩
  | walk h sent ih =>
    obtain ⟨living, hliving⟩ := ih
    refine ⟨_, hliving.absorbs fun frame hframe => ?_⟩
    obtain ⟨x, standing, instant, hbuilt, htenant, hstanding⟩ := sent frame hframe
    exact ⟨instant, proper_built hbuilt htenant hstanding⟩

end Runs

-- A type with one list, over the whole value.
section Sample

def numbers : Declaration Nat Nat where
  hash := 7
  naturalKey := none
  numLists := 1
  listField _ value := value
  numSecondaries := 0
  secondaryField := Fin.elim0
  numFuzzy := 0
  fuzzyFields := Fin.elim0

def writer : Handle := ⟨⟨1, 0⟩, 1, 1⟩

def noNumbers : Whole numbers := ⟨fun _ => none, .empty numbers⟩

def oneNumber : Whole numbers :=
  noNumbers.after ((noNumbers.catalog.perform writer (.insert 3)).runIn ⟨fun _ => none, fun n => n + 5, 0⟩)

def numberFrame : Frame Nat := (Id.new 5 1 false (typeSalt 7), writer.firstMeta 5, 3)

def oneLiving : Living Nat := Function.update (fun _ => none) (.ofId numberFrame.1) (some (5, numberFrame.2))

theorem built_oneNumber : Built numbers 1 oneNumber oneLiving :=
  .operate writer (.insert 3) (.create _ fun _ => rfl) rfl trivial rfl (show (5 : Nat) < 2 ^ 64 - 1 by decide)

theorem fed_oneNumber : Fed numbers writer (absorb writer none [numberFrame]) := by
  refine .walk .cold fun frame hframe => ?_
  rw [List.mem_singleton.mp hframe]
  exact ⟨oneNumber, oneLiving, 5, built_oneNumber, rfl, Function.update_self ..⟩

def removedNumber : Whole numbers :=
  oneNumber.after ((oneNumber.catalog.perform writer (.remove numberFrame.1)).runIn
    ⟨oneNumber.store, fun n => n + 9, 5⟩)

end Sample

end WaveDb.Client.Warm
