import WaveDb.Node.Changes
import WaveDb.Node.ServerDb

-- Catch-up of a Unique: a mirror that adopts the versions after its cursor has the
-- node's chain.
namespace WaveDb.Node

open WaveDb.Lib WaveDb.Core

section Adopt

variable {T : Type} [DecidableEq T]

def adoptPlan (hash tenant : Nat) (header : Metadata) : SavePlan where
  hash := hash
  shape := .unique
  liveId := uniqueAnchor tenant hash
  tenant := tenant
  user := header.user
  pivotId := none
  imposed := some header
  floor := 0
  revives := false

def adoptUnique (hash tenant : Nat) (header : Metadata) (value : T) : Engine (Stored T) Unit := do
  let found ← Engine.getOf hash (uniqueAnchor tenant hash)
  if found = some (header, value) then return ()
  else do
    let (batch, _, _) ← planChainedSave (adoptPlan hash tenant header) value
    Engine.apply batch

def adoptAll (decode : Bytes → Except Error T) (hash tenant : Nat) :
    List Change → Engine (Stored T) Unit
  | [] => return ()
  | .saved _ header body :: rest => do
      let value ← Prog.ofExcept (decode body)
      adoptUnique hash tenant header value
      adoptAll decode hash tenant rest
  | _ :: rest => adoptAll decode hash tenant rest

end Adopt

section Chain

variable {T : Type} {hash tenant : Nat} {s s' : Store (Stored T)}

structure Version (T : Type) where
  instant : Nat
  header : Metadata
  value : T
  live : header.succession = .createdAt instant
  pos : 0 < instant

namespace Version

def stored (v : Version T) : Stored T := (v.header, v.value)

def archived (v : Version T) (successor : Nat) : Stored T :=
  ({ v.header with succession := .next successor }, v.value)

end Version

def slotOf (hash tenant instant : Nat) : Id := archiveId hash .unique instant tenant

theorem anchor_ne_slotOf (hash tenant instant : Nat) :
    uniqueAnchor tenant hash ≠ slotOf hash tenant instant := by
  intro h
  have hflag := congrArg (fun id => (LocalId.ofId id).flag) h
  simp only [slotOf, archiveId_flag, uniqueAnchor, Id.new_flag, Shape.anchorFlag] at hflag
  cases hflag

-- Every version but the last is in its slot, with the instant of the next.
def Archived (hash tenant : Nat) (s : Store (Stored T)) : List (Version T) → Prop
  | v :: next :: rest => v.instant < next.instant ∧
      s (slotOf hash tenant v.instant) = some (v.archived next.instant) ∧
      Archived hash tenant s (next :: rest)
  | _ => True

structure Chained (hash tenant : Nat) (s : Store (Stored T)) (versions : List (Version T)) : Prop where
  anchor : s (uniqueAnchor tenant hash) = versions.getLast?.map Version.stored
  archived : Archived hash tenant s versions

theorem Archived.lt_last {versions : List (Version T)} {v : Version T}
    (h : Archived hash tenant s (versions ++ [v])) : ∀ u ∈ versions, u.instant < v.instant := by
  induction versions with
  | nil => simp
  | cons u versions ih =>
    intro x hx
    cases versions with
    | nil =>
      rw [List.mem_singleton.mp hx]
      exact h.1
    | cons u' versions =>
      have hrest := ih h.2.2
      rcases List.mem_cons.mp hx with rfl | hx
      · exact h.1.trans (hrest u' List.mem_cons_self)
      · exact hrest x hx

-- A version on top: the last one gets its slot, and no older slot is touched.
theorem Archived.append {versions : List (Version T)} {v next : Version T}
    (h : Archived hash tenant s (versions ++ [v])) (hlt : v.instant < next.instant)
    (hslot : s' (slotOf hash tenant v.instant) = some (v.archived next.instant))
    (hframe : ∀ i < v.instant, s' (slotOf hash tenant i) = s (slotOf hash tenant i)) :
    Archived hash tenant s' (versions ++ [v, next]) := by
  have hlast := h.lt_last
  induction versions with
  | nil => exact ⟨hlt, hslot, trivial⟩
  | cons u versions ih =>
    have hu := hframe u.instant (hlast u List.mem_cons_self)
    cases versions with
    | nil => exact ⟨h.1, hu.trans h.2.1, ih trivial (by simp)⟩
    | cons u' versions =>
      exact ⟨h.1, hu.trans h.2.1, ih h.2.2 fun x hx => hlast x (List.mem_cons_of_mem _ hx)⟩

def followed (hash tenant : Nat) (s : Store (Stored T)) (v next : Version T) : Store (Stored T) :=
  Function.update (Function.update s (slotOf hash tenant v.instant) (some (v.archived next.instant)))
    (uniqueAnchor tenant hash) (some next.stored)

theorem Chained.follow {versions : List (Version T)} {v next : Version T}
    (h : Chained hash tenant s (versions ++ [v])) (hlt : v.instant < next.instant) :
    Chained hash tenant (followed hash tenant s v next) (versions ++ [v, next]) := by
  have hslot : ∀ i, followed hash tenant s v next (slotOf hash tenant i) =
      if i = v.instant then some (v.archived next.instant) else s (slotOf hash tenant i) := by
    intro i
    rw [followed, Function.update_of_ne (anchor_ne_slotOf hash tenant i).symm]
    split
    · rename_i heq
      rw [heq, Function.update_self]
    · rename_i hne
      exact Function.update_of_ne (fun heq => hne (archiveId_inj.mp heq)) _ _
  refine ⟨?_, h.archived.append hlt ?_ fun i hi => ?_⟩
  · rw [followed, Function.update_self]
    simp
  · rw [hslot, if_pos rfl]
  · rw [hslot, if_neg hi.ne]

def followedAll (hash tenant : Nat) : Store (Stored T) → Version T → List (Version T) → Store (Stored T)
  | s, _, [] => s
  | s, v, next :: rest => followedAll hash tenant (followed hash tenant s v next) next rest

def Ascends : Version T → List (Version T) → Prop
  | _, [] => True
  | v, next :: rest => v.instant < next.instant ∧ Ascends next rest

def latest : Version T → List (Version T) → Version T
  | v, [] => v
  | _, next :: rest => latest next rest

theorem Ascends.le_latest {v : Version T} {later : List (Version T)} (h : Ascends v later) :
    v.instant ≤ (latest v later).instant := by
  induction later generalizing v with
  | nil => exact le_rfl
  | cons next rest ih => exact h.1.le.trans (ih h.2)

theorem getLast?_latest (versions : List (Version T)) (v : Version T) (later : List (Version T)) :
    (versions ++ v :: later).getLast? = some (latest v later) := by
  induction later generalizing versions v with
  | nil => exact List.getLast?_concat
  | cons next rest ih =>
    have hrest := ih (versions ++ [v]) next
    rwa [List.append_assoc] at hrest

theorem dropLast_latest (v : Version T) (later : List (Version T)) :
    (v :: later).dropLast ++ [latest v later] = v :: later := by
  have hlast := getLast?_latest [] v later
  exact List.dropLast_append_getLast? _ hlast

theorem followed_anchor (s : Store (Stored T)) (v next : Version T) :
    followed hash tenant s v next (uniqueAnchor tenant hash) = some next.stored :=
  Function.update_self ..

theorem followedAll_anchor {v : Version T} (h : s (uniqueAnchor tenant hash) = some v.stored) (later : List (Version T)) :
    followedAll hash tenant s v later (uniqueAnchor tenant hash) = some (latest v later).stored := by
  induction later generalizing s v with
  | nil => exact h
  | cons next rest ih => exact ih (followed_anchor s v next)

theorem Chained.followAll {versions later : List (Version T)} {v : Version T}
    (h : Chained hash tenant s (versions ++ [v])) (hlater : Ascends v later) :
    Chained hash tenant (followedAll hash tenant s v later) (versions ++ v :: later) := by
  induction later generalizing s versions v with
  | nil => exact h
  | cons next rest ih =>
    have hnext : Chained hash tenant (followed hash tenant s v next) (versions ++ [v] ++ [next]) := by
      rw [List.append_assoc]
      exact h.follow hlater.1
    have hrest := ih hnext hlater.2
    rwa [List.append_assoc] at hrest

structure SameChain (hash tenant : Nat) (s s' : Store (Stored T)) : Prop where
  live : s (uniqueAnchor tenant hash) = s' (uniqueAnchor tenant hash)
  archives : ∀ instant, s (slotOf hash tenant instant) = s' (slotOf hash tenant instant)

theorem SameChain.follow (h : SameChain hash tenant s s') (v next : Version T) :
    SameChain hash tenant (followed hash tenant s v next) (followed hash tenant s' v next) := by
  constructor
  · rw [followed, followed, Function.update_self, Function.update_self]
  · intro instant
    have hne := (anchor_ne_slotOf hash tenant instant).symm
    rw [followed, followed, Function.update_of_ne hne, Function.update_of_ne hne]
    by_cases hslot : slotOf hash tenant instant = slotOf hash tenant v.instant
    · rw [hslot, Function.update_self, Function.update_self]
    · rw [Function.update_of_ne hslot, Function.update_of_ne hslot]
      exact h.archives instant

theorem SameChain.followAll (h : SameChain hash tenant s s') (v : Version T) (later : List (Version T)) :
    SameChain hash tenant (followedAll hash tenant s v later) (followedAll hash tenant s' v later) := by
  induction later generalizing s s' v with
  | nil => exact h
  | cons next rest ih => exact ih (h.follow v next) next

end Chain

section Steps

variable {T : Type} [DecidableEq T] {hash tenant : Nat} {w w' : World (Stored T)} {v next : Version T}

theorem runIn_apply_followed (next : Version T) (h : w.store (uniqueAnchor tenant hash) = some v.stored)
    (hlt : v.instant < next.instant) (hkept : w'.store = w.store) :
    (Engine.apply (Collection.nextBatch hash (slotOf hash tenant v.instant) (uniqueAnchor tenant hash)
      v.stored v.instant next.instant next.header next.value)).runIn w' =
      (.ok (), w'.holding (followed hash tenant w.store v next)) := by
  have happly := Collection.runIn_apply_nextBatch h ⟨[], []⟩ hash (slotOf hash tenant v.instant)
    v.instant next.instant next.header next.value hkept
  rwa [Collection.Site.replaced, if_pos hlt] at happly

theorem runIn_saveUniqueAs_next (user : Nat) (value : T)
    (h : w.store (uniqueAnchor tenant hash) = some v.stored) (hlast : v.instant < 2 ^ 64 - 1) :
    ∃ next : Version T, v.instant < next.instant ∧
      ((saveUniqueAs hash tenant user value).runIn w).2.store = followed hash tenant w.store v next := by
  have hlt : v.instant < w.minted (max v.instant 0) := by
    rw [Nat.max_zero]
    exact World.floor_lt_minted hlast
  let next : Version T := ⟨w.minted (max v.instant 0),
    (uniquePlan hash tenant user).nextMeta v.header v.instant (w.minted (max v.instant 0)), value, rfl,
    v.pos.trans hlt⟩
  refine ⟨next, hlt, ?_⟩
  have hauthor : Collection.Authors (uniquePlan hash tenant user) (max v.instant 0)
      ((uniquePlan hash tenant user).nextMeta v.header v.instant) w next.header (w.mint (max v.instant 0)) :=
    runIn_author_none rfl _ _
  have hplan := runIn_planChainedSave_chained value h v.live hauthor next.live
  have happly := runIn_apply_followed next h hlt (World.mint_store w (max v.instant 0))
  rw [saveUniqueAs, Engine.runIn_bind_ok hplan]
  refine (Engine.runIn_bind_ok happly).symm ▸ ?_
  rfl

theorem runIn_saveUniqueAs_first (user : Nat) (value : T)
    (h : w.store (uniqueAnchor tenant hash) = none) :
    ∃ first : Version T, ((saveUniqueAs hash tenant user value).runIn w).2.store =
      Function.update w.store (uniqueAnchor tenant hash) (some first.stored) := by
  have hpos : 0 < w.minted 0 := World.floor_lt_minted (by decide)
  let first : Version T := ⟨w.minted 0, (uniquePlan hash tenant user).firstMeta (w.minted 0), value, rfl, hpos⟩
  refine ⟨first, ?_⟩
  have hauthor : Collection.Authors (uniquePlan hash tenant user) 0
      (uniquePlan hash tenant user).firstMeta w first.header (w.mint 0) := runIn_author_none rfl _ _
  have hplan := runIn_planChainedSave_vacant value h hauthor
  have happly := Engine.runIn_apply (Collection.conflict_first h first.header value hash
    (World.mint_store w 0))
  rw [saveUniqueAs, Engine.runIn_bind_ok hplan]
  refine (Engine.runIn_bind_ok happly).symm ▸ ?_
  rfl

theorem runIn_adoptUnique (h : w.store (uniqueAnchor tenant hash) = some v.stored)
    (hlt : v.instant < next.instant) :
    (adoptUnique hash tenant next.header next.value).runIn w =
      (.ok (), w.holding (followed hash tenant w.store v next)) := by
  have hne : ¬ some v.stored = some (next.header, next.value) := by
    intro heq
    have hheader : v.header = next.header := congrArg Prod.fst (Option.some.inj heq)
    have hsame := v.live.symm.trans ((congrArg Metadata.succession hheader).trans next.live)
    exact hlt.ne (Succession.createdAt.inj hsame)
  have hauthor : Collection.Authors (adoptPlan hash tenant next.header) (max v.instant 0)
      ((adoptPlan hash tenant next.header).nextMeta v.header v.instant) w next.header w :=
    runIn_author_imposed rfl _ _
  have hplan := runIn_planChainedSave_chained next.value h v.live hauthor next.live
  rw [adoptUnique, Engine.runIn_bind_ok (Engine.runIn_getOf _ _ _), h, if_neg hne,
    Engine.runIn_bind_ok hplan]
  exact runIn_apply_followed next h hlt rfl

end Steps

section Saves

variable {T : Type} [DecidableEq T]

structure UniqueSave (T : Type) where
  user : Nat
  value : T
  clock : Nat → Nat
  last : Nat

variable (hash tenant : Nat)

def UniqueSave.on (save : UniqueSave T) (s : Store (Stored T)) : Store (Stored T) :=
  ((saveUniqueAs hash tenant save.user save.value).runIn ⟨s, save.clock, save.last⟩).2.store

def saveAll : Store (Stored T) → List (UniqueSave T) → Store (Stored T)
  | s, [] => s
  | s, save :: rest => saveAll (save.on hash tenant s) rest

def trail : Store (Stored T) → List (UniqueSave T) → List (Stored T)
  | _, [] => []
  | s, save :: rest =>
    (save.on hash tenant s (uniqueAnchor tenant hash)).toList ++ trail (save.on hash tenant s) rest

def liveInstant (s : Store (Stored T)) : Option Nat :=
  match s (uniqueAnchor tenant hash) with
  | none => none
  | some (header, _) =>
    match header.succession with
    | .createdAt instant => some instant
    | .next _ => none

-- No save finds a live version of the last instant of a `u64`.
def Rises : Store (Stored T) → List (UniqueSave T) → Prop
  | _, [] => True
  | s, save :: rest => (∀ instant ∈ liveInstant hash tenant s, instant < 2 ^ 64 - 1) ∧
      Rises (save.on hash tenant s) rest

instance (s : Store (Stored T)) (saves : List (UniqueSave T)) : Decidable (Rises hash tenant s saves) :=
  match saves with
  | [] => .isTrue trivial
  | _ :: rest => @instDecidableAnd _ _ _ (instDecidableRises _ rest)

variable {hash tenant} {s : Store (Stored T)} {v : Version T}

theorem saveAll_append (saves more : List (UniqueSave T)) :
    saveAll hash tenant s (saves ++ more) = saveAll hash tenant (saveAll hash tenant s saves) more := by
  induction saves generalizing s with
  | nil => rfl
  | cons save rest ih => exact ih

theorem Rises.append {saves more : List (UniqueSave T)} (h : Rises hash tenant s (saves ++ more)) :
    Rises hash tenant s saves ∧ Rises hash tenant (saveAll hash tenant s saves) more := by
  induction saves generalizing s with
  | nil => exact ⟨trivial, h⟩
  | cons save rest ih => exact ⟨⟨h.1, (ih h.2).1⟩, (ih h.2).2⟩

omit [DecidableEq T] in
theorem liveInstant_stored (h : s (uniqueAnchor tenant hash) = some v.stored) :
    liveInstant hash tenant s = some v.instant := by
  simp only [liveInstant, h, Version.stored, v.live]

theorem saveAll_followedAll (saves : List (UniqueSave T))
    (h : s (uniqueAnchor tenant hash) = some v.stored) (hrises : Rises hash tenant s saves) :
    ∃ later, Ascends v later ∧ trail hash tenant s saves = later.map Version.stored ∧
      saveAll hash tenant s saves = followedAll hash tenant s v later := by
  induction saves generalizing s v with
  | nil => exact ⟨[], trivial, rfl, rfl⟩
  | cons save rest ih =>
    obtain ⟨next, hlt, hstore⟩ : ∃ next : Version T, v.instant < next.instant ∧
        save.on hash tenant s = followed hash tenant s v next :=
      runIn_saveUniqueAs_next save.user save.value h (hrises.1 _ (liveInstant_stored h))
    have hnext : followed hash tenant s v next (uniqueAnchor tenant hash) = some next.stored :=
      followed_anchor s v next
    have hrest := hrises.2
    rw [hstore] at hrest
    obtain ⟨later, hlater, htrail, hall⟩ := ih hnext hrest
    refine ⟨next :: later, ⟨hlt, hlater⟩, ?_, ?_⟩
    · rw [trail, hstore, hnext, htrail]
      rfl
    · rw [saveAll, hstore, hall, followedAll]

theorem saveAll_live (saves : List (UniqueSave T)) (hsome : saves ≠ [])
    (hvacant : s (uniqueAnchor tenant hash) = none) (hrises : Rises hash tenant s saves) :
    ∃ v : Version T, saveAll hash tenant s saves (uniqueAnchor tenant hash) = some v.stored := by
  cases saves with
  | nil => exact (hsome rfl).elim
  | cons save rest =>
    obtain ⟨first, hfirst⟩ : ∃ first : Version T, save.on hash tenant s =
        Function.update s (uniqueAnchor tenant hash) (some first.stored) :=
      runIn_saveUniqueAs_first save.user save.value hvacant
    have hlive : save.on hash tenant s (uniqueAnchor tenant hash) = some first.stored := by
      rw [hfirst, Function.update_self]
    obtain ⟨later, -, -, hall⟩ := saveAll_followedAll rest hlive hrises.2
    refine ⟨latest first later, ?_⟩
    rw [saveAll, hall]
    exact followedAll_anchor hlive later

end Saves

section Walk

variable {T : Type} [DecidableEq T] {hash tenant cursor live steps : Nat} {w : World (Stored T)}
  {v next : Version T} {later : List (Version T)}
  (c : ChangesCodec (Stored T)) (encode : T → Bytes)

def changeOf (hash tenant : Nat) (record : Stored T) : Change :=
  .saved (uniqueAnchor tenant hash) record.1 (encode record.2)

variable {c} {encode} (hsplit : ∀ record, c.splitRecord hash record = .ok (record.1, encode record.2))

include hsplit

theorem runIn_splitRecord (record : Stored T) (w : World (Stored T)) :
    Engine.runIn (Prog.ofExcept (c.splitRecord hash record)) w = (.ok (record.1, encode record.2), w) := by
  rw [hsplit]
  rfl

theorem runIn_walkForward_step (h : Archived hash tenant w.store (v :: next :: later))
    (hlive : next.instant ≤ live) (changes : List Change) :
    (c.walkForward hash tenant cursor live (steps + 1) v.instant changes).runIn w =
      (c.walkForward hash tenant cursor live steps next.instant (changes ++
        if cursor < v.instant then [changeOf encode hash tenant v.stored] else [])).runIn w := by
  obtain ⟨hlt, hslot, -⟩ := h
  have hread := Engine.runIn_getOf hash (slotOf hash tenant v.instant) w
  rw [hslot] at hread
  have hrecord := runIn_splitRecord hsplit (v.archived next.instant) w
  have hform : { v.header with succession := .createdAt v.instant } = v.header := by
    rw [← v.live]
  rw [ChangesCodec.walkForward, if_pos ⟨v.pos, hlt.trans_le hlive⟩]
  refine (Engine.runIn_bind_ok hread).trans ((Engine.runIn_bind_ok hrecord).trans ?_)
  simp only [Version.archived, if_neg hlt.not_ge, hform]
  rfl

theorem runIn_walkForward (h : Archived hash tenant w.store (v :: later)) (hlater : Ascends v later)
    (hcursor : cursor < v.instant) (hsteps : (latest v later).instant ≤ v.instant + steps)
    (changes : List Change) :
    (c.walkForward hash tenant cursor (latest v later).instant steps v.instant changes).runIn w =
      (.ok (changes ++ (v :: later).dropLast.map fun u => changeOf encode hash tenant u.stored), w) := by
  induction later generalizing v steps changes with
  | nil =>
    rw [List.dropLast_singleton, List.map_nil, List.append_nil]
    cases steps with
    | zero => rfl
    | succ steps =>
      rw [ChangesCodec.walkForward, if_neg fun hlt => hlt.2.ne rfl]
      rfl
  | cons next rest ih =>
    have hlt := hlater.1
    have hnext := hlater.2.le_latest
    simp only [latest] at hsteps ⊢
    cases steps with
    | zero => omega
    | succ steps =>
      rw [runIn_walkForward_step hsplit h hnext, if_pos hcursor,
        ih h.2.2 hlater.2 (hcursor.trans hlt) (by omega)]
      simp only [List.dropLast_cons_cons, List.map_cons, List.append_assoc, List.singleton_append]

theorem runIn_uniqueChanges (h : Chained hash tenant w.store (v :: later)) (hlater : Ascends v later) :
    (c.uniqueChanges hash tenant (some v.instant)).runIn w =
      (.ok (c.values (latest v later).instant
        (later.map fun u => changeOf encode hash tenant u.stored)), w) := by
  have hread := Engine.runIn_getOf hash (uniqueAnchor tenant hash) w
  rw [h.anchor, ← List.nil_append (v :: later), getLast?_latest] at hread
  have hrecord := runIn_splitRecord hsplit (latest v later).stored w
  refine (Engine.runIn_bind_ok hread).trans ((Engine.runIn_bind_ok hrecord).trans ?_)
  simp only [Version.stored, (latest v later).live]
  cases later with
  | nil =>
    rw [latest, if_pos le_rfl]
    rfl
  | cons next rest =>
    have hlt := hlater.1
    have hnext := hlater.2.le_latest
    have hafter : ¬ (latest v (next :: rest)).instant ≤ v.instant := (hlt.trans_le hnext).not_ge
    obtain ⟨steps, hsteps⟩ : ∃ steps, (latest next rest).instant - v.instant = steps + 1 :=
      ⟨_, (Nat.succ_pred_eq_of_pos (Nat.sub_pos_of_lt (hlt.trans_le hnext))).symm⟩
    -- The first step passes the caller's own version.
    have hwalk : (c.walkForward hash tenant v.instant (latest next rest).instant
        ((latest next rest).instant - v.instant) v.instant []).runIn w =
        (.ok ((next :: rest).dropLast.map fun u => changeOf encode hash tenant u.stored), w) := by
      rw [hsteps, runIn_walkForward_step hsplit h.archived hnext, if_neg (lt_irrefl _),
        runIn_walkForward hsplit h.archived.2.2 hlater.2 hlt (by omega)]
      rfl
    rw [if_neg hafter]
    refine (Engine.runIn_bind_ok hwalk).trans ?_
    have hall := congrArg (List.map fun u => changeOf encode hash tenant u.stored) (dropLast_latest next rest)
    rw [List.map_append] at hall
    exact congrArg (fun changes => (Outcome.ok (c.values (latest next rest).instant changes), w)) hall

end Walk

section CatchUp

variable {T : Type} [DecidableEq T] {hash tenant : Nat} {w : World (Stored T)} {v : Version T}
  {encode : T → Bytes} {decode : Bytes → Except Error T}

theorem runIn_adoptAll (hdecode : ∀ value, decode (encode value) = .ok value) {later : List (Version T)}
    (h : w.store (uniqueAnchor tenant hash) = some v.stored) (hlater : Ascends v later) :
    (adoptAll decode hash tenant (later.map fun u => changeOf encode hash tenant u.stored)).runIn w =
      (.ok (), w.holding (followedAll hash tenant w.store v later)) := by
  induction later generalizing w v with
  | nil => rfl
  | cons next rest ih =>
    have hvalue : Engine.runIn (Prog.ofExcept (decode (encode next.value))) w = (.ok next.value, w) := by
      rw [hdecode]
      rfl
    refine (Engine.runIn_bind_ok hvalue).trans ?_
    refine (Engine.runIn_bind_ok (runIn_adoptUnique h hlater.1)).trans ?_
    exact ih (followed_anchor w.store v next) hlater.2

-- The answer is what was saved since the version of the cursor, and adopting it makes
-- the client's chain the node's.
theorem unique_catch_up {c : ChangesCodec (Stored T)} (start : Store (Stored T))
    (hsplit : ∀ record, c.splitRecord hash record = .ok (record.1, encode record.2))
    (hdecode : ∀ value, decode (encode value) = .ok value)
    (hvacant : start (uniqueAnchor tenant hash) = none)
    (earlier later : List (UniqueSave T)) (hearlier : earlier ≠ [])
    (hrises : Rises hash tenant start (earlier ++ later))
    (node mirror : World (Stored T)) (hnode : node.store = saveAll hash tenant start (earlier ++ later))
    (hmirror : SameChain hash tenant mirror.store (saveAll hash tenant start earlier)) :
    ∃ cursor live, liveInstant hash tenant (saveAll hash tenant start earlier) = some cursor ∧
      liveInstant hash tenant node.store = some live ∧
      (c.uniqueChanges hash tenant (some cursor)).runIn node =
        (.ok (c.values live ((trail hash tenant (saveAll hash tenant start earlier) later).map
          (changeOf encode hash tenant))), node) ∧
      ∃ caughtUp : World (Stored T),
        (adoptAll decode hash tenant ((trail hash tenant (saveAll hash tenant start earlier) later).map
          (changeOf encode hash tenant))).runIn mirror = (.ok (), caughtUp) ∧
        SameChain hash tenant caughtUp.store node.store := by
  obtain ⟨hbefore, hafter⟩ := hrises.append
  obtain ⟨v, hv⟩ := saveAll_live earlier hearlier hvacant hbefore
  obtain ⟨versions, hascends, htrail, hall⟩ := saveAll_followedAll later hv hafter
  rw [saveAll_append, hall] at hnode
  have hheld : Chained hash tenant (saveAll hash tenant start earlier) ([] ++ [v]) := ⟨hv, trivial⟩
  have hchain : Chained hash tenant node.store (v :: versions) := by
    rw [hnode]
    exact hheld.followAll hascends
  have hlive : node.store (uniqueAnchor tenant hash) = some (latest v versions).stored := by
    rw [hnode]
    exact followedAll_anchor hv versions
  rw [htrail, List.map_map]
  refine ⟨v.instant, (latest v versions).instant, liveInstant_stored hv, liveInstant_stored hlive,
    runIn_uniqueChanges hsplit hchain hascends, _, runIn_adoptAll hdecode (hmirror.live.trans hv) hascends, ?_⟩
  rw [hnode]
  exact hmirror.followAll v versions

def plainChanges : ChangesCodec (Stored Bytes) where
  query _ := .ok (none, none)
  pivotHash := id
  chains _ _ _ := .error .wire
  splitRecord _ record := .ok record
  change
    | .cursor instant => [UInt8.ofNat instant]
    | .saved _ _ body => body
    | .removed _ instant => [UInt8.ofNat instant]
  refusal _ := .backend "refused"

def plainSave (value : Bytes) (now : Nat) : UniqueSave Bytes := ⟨1, value, fun _ => now, 0⟩

def plainNode (saves : List (UniqueSave Bytes)) : World (Stored Bytes) :=
  ⟨saveAll 3 1 (fun _ => none) saves, fun _ => 0, 0⟩

theorem unique_catch_up_two :
    liveInstant 3 1 (plainNode [plainSave [1] 5]).store = some 5 ∧
    ∃ cursor live, liveInstant 3 1 (plainNode [plainSave [1] 5]).store = some cursor ∧
      liveInstant 3 1 (plainNode [plainSave [1] 5, plainSave [2] 9, plainSave [3] 4]).store = some live ∧
      (plainChanges.uniqueChanges 3 1 (some cursor)).runIn
        (plainNode [plainSave [1] 5, plainSave [2] 9, plainSave [3] 4]) =
        (.ok (plainChanges.values live ((trail 3 1 (plainNode [plainSave [1] 5]).store
          [plainSave [2] 9, plainSave [3] 4]).map (changeOf id 3 1))),
          plainNode [plainSave [1] 5, plainSave [2] 9, plainSave [3] 4]) ∧
      ∃ caughtUp : World (Stored Bytes),
        (adoptAll Except.ok 3 1 ((trail 3 1 (plainNode [plainSave [1] 5]).store
          [plainSave [2] 9, plainSave [3] 4]).map (changeOf id 3 1))).runIn
          (plainNode [plainSave [1] 5]) = (.ok (), caughtUp) ∧
        SameChain 3 1 caughtUp.store (plainNode [plainSave [1] 5, plainSave [2] 9, plainSave [3] 4]).store :=
  ⟨by decide, unique_catch_up (fun _ => none) (fun _ => rfl) (fun _ => rfl) rfl [plainSave [1] 5]
    [plainSave [2] 9, plainSave [3] 4] (by simp) (by decide) _ _ rfl ⟨rfl, fun _ => rfl⟩⟩

-- Over a version of the last instant a save gets it again: the older version is lost,
-- and its cursor answers nothing.
theorem unique_catch_up_last_instant :
    liveInstant 3 1 (plainNode [plainSave [1] (2 ^ 64 - 1)]).store = some (2 ^ 64 - 1) ∧
    (trail 3 1 (plainNode [plainSave [1] (2 ^ 64 - 1)]).store [plainSave [2] (2 ^ 64 - 1)]).map Prod.snd = [[2]] ∧
    (plainChanges.uniqueChanges 3 1 (some (2 ^ 64 - 1))).runIn
      (plainNode [plainSave [1] (2 ^ 64 - 1), plainSave [2] (2 ^ 64 - 1)]) =
      (.ok (plainChanges.values (2 ^ 64 - 1) []),
        plainNode [plainSave [1] (2 ^ 64 - 1), plainSave [2] (2 ^ 64 - 1)]) :=
  ⟨by decide, by decide, rfl⟩

end CatchUp

end WaveDb.Node
