import WaveDb.Collection.Effect

-- The writes of a collection, run to their end.
namespace WaveDb.Collection

open WaveDb.Lib WaveDb.Core

variable {T : Type} [DecidableEq T] {kind : Kind T} {handle : Handle} {chains : Chains} {id : Id}
  {value oldValue : T} {imposed : Option Metadata} {revives : Bool} {old header : Metadata}
  {authored instant : Nat} {w w' : World (Stored T)}

abbrev Authors (plan : SavePlan) (floor : Nat) (f : Nat → Metadata) (w : World (Stored T))
    (header : Metadata) (w' : World (Stored T)) : Prop :=
  (plan.author floor f).runIn w = (.ok header, w')

theorem store_author {plan : SavePlan} {floor : Nat} {f : Nat → Metadata}
    (h : Authors plan floor f w header w') : w'.store = w.store := by
  cases himposed : plan.imposed with
  | none =>
    rw [Authors, runIn_author_none himposed] at h
    cases h
    rfl
  | some header =>
    rw [Authors, runIn_author_imposed himposed] at h
    cases h
    rfl

theorem runIn_anchor (w : World (Stored T)) (id : Id) :
    (anchor kind id).runIn w = (.ok (match w.store id with
      | none => .vacant
      | some (header, value) => if header.isLive then .living header value else .dead), w) := by
  rw [anchor, Engine.runIn_bind_ok (Engine.runIn_getOf _ _ _)]
  cases w.store id with
  | none => rfl
  | some stored => rfl

omit [DecidableEq T] in
theorem not_foreign_iff : ¬(keyedAnchor kind handle value).any (· ≠ id) = true ↔
    ∀ a ∈ keyedAnchor kind handle value, a = id := by
  cases keyedAnchor kind handle value <;> simp

section Plans

variable (hold : w.store id = some (old, oldValue)) (hauthored : old.succession = .createdAt authored)
  (hinstant : header.succession = .createdAt instant)

def nextBatch (hash : Nat) (slot id : Id) (old : Stored T) (authored instant : Nat)
    (header : Metadata) (value : T) : List (Write (Stored T)) :=
  .expect hash id (some old) ::
    (if authored < instant then [.put slot ({ old.1 with succession := .next instant }, old.2)]
      else []) ++ [.put id (header, value)]

include hold in
theorem runIn_apply_nextBatch (chains : Chains) (hash : Nat) (slot : Id) (authored instant : Nat) (header : Metadata)
    (value : T) (h : w'.store = w.store) :
    (Engine.apply (nextBatch hash slot id (old, oldValue) authored instant header value)).runIn w' =
      (.ok (), w'.holding (Site.replaced ⟨w.store, chains⟩ slot id (old, oldValue) authored instant
        header value)) := by
  have hbatch : w'.store.conflict
      (nextBatch hash slot id (old, oldValue) authored instant header value) = none := by
    unfold nextBatch
    split_ifs <;> simp [Store.conflict, h, hold]
  rw [Engine.runIn_apply hbatch, h, nextBatch, Site.replaced]
  split_ifs <;> rfl

include hold hauthored hinstant

theorem runIn_savePlanned_next (hid : ∀ a ∈ keyedAnchor kind handle value, a = id)
    (hauthor : Authors (savePlan kind handle chains id imposed false)
      (max authored chains.instantFloor)
      ((savePlan kind handle chains id imposed false).nextMeta old authored) w header w') :
    (savePlanned kind handle chains id value imposed).runIn w =
      (.ok (Site.moved (T := T) ⟨w.store, chains⟩ id authored instant, .saved id header value),
        w'.holding (Site.replaced ⟨w.store, chains⟩ (kind.slot handle authored) id (old, oldValue)
          authored instant header value)) := by
  have hplan := runIn_planChainedSave_chained value hold hauthored hauthor hinstant
  have hmove : (planReindex kind chains.recency (some (authored, oldValue)) id header).runIn w' =
      (.ok (Site.moved (T := T) ⟨w.store, chains⟩ id authored instant).recency, w') := by
    simp only [planReindex, planChainMove, hinstant, Site.moved]
    split_ifs <;> rfl
  have happly := runIn_apply_nextBatch hold chains kind.hash (kind.slot handle authored)
    authored instant header value (store_author hauthor)
  rw [savePlanned, if_neg (not_foreign_iff.mpr hid), Engine.runIn_bind_ok hplan, Engine.runIn_bind_ok hmove]
  refine (Engine.runIn_bind_ok happly).trans ?_
  simp only [Site.moved]
  split_ifs <;> rfl

theorem runIn_chainIntoLiving_next
    (hauthor : Authors (savePlan kind handle chains id imposed true)
      (max authored chains.instantFloor)
      ((savePlan kind handle chains id imposed true).nextMeta old authored) w header w') :
    (chainIntoLiving kind handle chains id imposed value).runIn w =
      (.ok (Site.entered (T := T) ⟨w.store, chains⟩ id instant, .saved id header value),
        w'.holding (Site.replaced ⟨w.store, chains⟩ (kind.slot handle authored) id (old, oldValue)
          authored instant header value)) := by
  have hplan := runIn_planChainedSave_chained value hold hauthored hauthor hinstant
  have happly := runIn_apply_nextBatch hold chains kind.hash (kind.slot handle authored)
    authored instant header value (store_author hauthor)
  rw [chainIntoLiving, Engine.runIn_bind_ok hplan]
  simp only [hinstant]
  exact Engine.runIn_bind_ok happly

end Plans

section Firsts

variable (hvacant : w.store id = none)

include hvacant

theorem conflict_first (header : Metadata) (value : T) (hash : Nat) (h : w'.store = w.store) :
    w'.store.conflict [.expect hash id none, .put id (header, value)] = none := by
  simp only [Store.conflict, h, hvacant, if_true]

theorem runIn_savePlanned_first (hid : ∀ a ∈ keyedAnchor kind handle value, a = id)
    (hkind : kind.secondaries = 0)
    (hauthor : Authors (savePlan kind handle chains id imposed false) chains.instantFloor
      (savePlan kind handle chains id imposed false).firstMeta w header w') :
    (savePlanned kind handle chains id value imposed).runIn w =
      (.ok (chains, .saved id header value),
        w'.holding (Function.update w.store id (some (header, value)))) := by
  have hplan := runIn_planChainedSave_vacant value hvacant hauthor
  have hmove : (planReindex kind chains.recency (none : Option (Nat × T)) id header).runIn w' =
      (.ok chains.recency, w') := by
    rw [planReindex, if_neg (by omega)]
    rfl
  have happly := Engine.runIn_apply
    (conflict_first hvacant header value kind.hash (store_author hauthor))
  rw [savePlanned, if_neg (not_foreign_iff.mpr hid), Engine.runIn_bind_ok hplan, Engine.runIn_bind_ok hmove]
  refine (Engine.runIn_bind_ok happly).trans ?_
  rw [store_author hauthor]
  rfl

theorem runIn_savePlanned_missing (hid : ∀ a ∈ keyedAnchor kind handle value, a = id)
    (hkind : kind.secondaries ≠ 0)
    (hauthor : Authors (savePlan kind handle chains id imposed false) chains.instantFloor
      (savePlan kind handle chains id imposed false).firstMeta w header w') :
    (savePlanned kind handle chains id value imposed).runIn w =
      (.error (.recordMissing id), w') := by
  have hplan := runIn_planChainedSave_vacant value hvacant hauthor
  rw [savePlanned, if_neg (not_foreign_iff.mpr hid), Engine.runIn_bind_ok hplan]
  simp only [planReindex, if_pos (Nat.pos_of_ne_zero hkind)]
  rfl

theorem runIn_chainIntoLiving_first (hinstant : header.succession = .createdAt instant)
    (hauthor : Authors (savePlan kind handle chains id imposed true) chains.instantFloor
      (savePlan kind handle chains id imposed true).firstMeta w header w') :
    (chainIntoLiving kind handle chains id imposed value).runIn w =
      (.ok (Site.entered (T := T) ⟨w.store, chains⟩ id instant, .saved id header value),
        w'.holding (Function.update w.store id (some (header, value)))) := by
  have hplan := runIn_planChainedSave_vacant value hvacant hauthor
  have happly := Engine.runIn_apply
    (conflict_first hvacant header value kind.hash (store_author hauthor))
  rw [chainIntoLiving, Engine.runIn_bind_ok hplan]
  simp only [hinstant]
  refine (Engine.runIn_bind_ok happly).trans ?_
  rw [store_author hauthor]
  rfl

end Firsts

section Archived

variable {successor : Nat} (hold : w.store id = some (old, oldValue))
  (hauthored : old.succession = .next successor)

include hold hauthored

theorem runIn_plan_archived (revives : Bool) :
    (planChainedSave (savePlan kind handle chains id imposed revives) value).runIn w =
      (.error (.chainCorrupt id), w) :=
  runIn_planChainedSave_archived value hold hauthored

theorem runIn_savePlanned_archived (hid : ∀ a ∈ keyedAnchor kind handle value, a = id) :
    (savePlanned kind handle chains id value imposed).runIn w = (.error (.chainCorrupt id), w) := by
  rw [savePlanned, if_neg (not_foreign_iff.mpr hid)]
  exact Engine.runIn_bind_error (runIn_plan_archived hold hauthored false)

theorem runIn_chainIntoLiving_archived :
    (chainIntoLiving kind handle chains id imposed value).runIn w =
      (.error (.chainCorrupt id), w) :=
  Engine.runIn_bind_error (runIn_plan_archived hold hauthored true)

end Archived

theorem runIn_insertWithMeta (hinstant : header.succession = .createdAt instant) :
    (insertWithMeta chains id header value).runIn w =
      (.ok (Site.entered (T := T) ⟨w.store, chains⟩ id instant, .saved id header value),
        w.holding (Function.update w.store id (some (header, value)))) := by
  have happly := Engine.runIn_apply
    (show w.store.conflict [.put id (header, value)] = none from rfl)
  simp only [insertWithMeta, hinstant]
  exact Engine.runIn_bind_ok happly

inductive Commits (kind : Kind T) (handle : Handle) (chains : Chains) (w : World (Stored T))
    (request : Request T) : Outcome Error (Chains × Change T) × World (Stored T) → Prop
  | refused (e : Error) {w' : World (Stored T)} (hworld : w' = w ∨ ∃ floor, w' = w.mint floor) :
      Commits kind handle chains w request (.error e, w')
  | effect {floor : Nat} {change : Change T} {site : Site T}
      (hfloor : chains.instantFloor ≤ floor) (hlt : floor < w.minted floor)
      (heffect : Effect kind handle ⟨w.store, chains⟩ (w.minted floor) request change site) :
      Commits kind handle chains w request
        (.ok (site.chains, change), (w.mint floor).holding site.store)

-- How a request ends when the minted instants stay below the last `u64`.
inductive Done (kind : Kind T) (handle : Handle) (chains : Chains) (w : World (Stored T))
    (request : Request T) :
    Outcome Error (Chains × Option (Change T)) × World (Stored T) → Prop
  | refused (e : Error) {w' : World (Stored T)} (hworld : w' = w ∨ ∃ floor, w' = w.mint floor) :
      Done kind handle chains w request (.error e, w')
  | idle : Done kind handle chains w request (.ok (chains, none), w)
  | effect {floor : Nat} {change : Change T} {site : Site T}
      (hfloor : chains.instantFloor ≤ floor) (hlt : floor < w.minted floor)
      (heffect : Effect kind handle ⟨w.store, chains⟩ (w.minted floor) request change site) :
      Done kind handle chains w request
        (.ok (site.chains, some change), (w.mint floor).holding site.store)

section Requests

variable {request : Request T}

-- The version authored here over an older one commits, unless the instants ran out.
theorem savePlanned_commits (hid : ∀ a ∈ keyedAnchor kind handle value, a = id)
    (hrequest : request = .save id value ∨ request = .insert value ∧
      keyedAnchor kind handle value = some id ∧
        ∃ header value, w.store id = some (header, value) ∧ header.removed = false)
    (hlast : ((savePlanned kind handle chains id value none).runIn w).2.last < 2 ^ 64 - 1) :
    Commits kind handle chains w request
      ((savePlanned kind handle chains id value none).runIn w) := by
  cases hstore : w.store id with
  | none =>
    have hsave : request = .save id value := hrequest.resolve_right (by simp [hstore])
    have hauthor : Authors (savePlan kind handle chains id none false) chains.instantFloor
        (savePlan kind handle chains id none false).firstMeta w _ _ := runIn_author_none rfl _ _
    by_cases hkind : kind.secondaries = 0
    · rw [runIn_savePlanned_first hstore hid hkind hauthor] at hlast ⊢
      subst hsave
      exact .effect le_rfl (World.floor_lt_of_minted hlast) (.first hid hstore hkind)
    · rw [runIn_savePlanned_missing hstore hid hkind hauthor]
      exact .refused _ (.inr ⟨_, rfl⟩)
  | some stored =>
    obtain ⟨old, oldValue⟩ := stored
    cases hauthored : old.succession with
    | next successor =>
      rw [runIn_savePlanned_archived hstore hauthored hid]
      exact .refused _ (.inl rfl)
    | createdAt authored =>
      have hauthor : Authors (savePlan kind handle chains id none false)
          (max authored chains.instantFloor)
          ((savePlan kind handle chains id none false).nextMeta old authored) w _ _ :=
        runIn_author_none rfl _ _
      rw [runIn_savePlanned_next hstore hauthored rfl hid hauthor] at hlast ⊢
      have hlt := World.floor_lt_of_minted hlast
      have hauth : authored < w.minted (max authored chains.instantFloor) :=
        (le_max_left _ _).trans_lt hlt
      rw [Site.replaced, if_pos hauth]
      refine .effect (le_max_right _ _) hlt (.next hid ?_ hstore hauthored hauth)
      rcases hrequest with hsave | ⟨hinsert, hkey, header, value', hheader, hlive⟩
      · exact .inl hsave
      · rw [hstore] at hheader
        cases hheader
        exact .inr ⟨hinsert, hkey, hlive⟩

theorem chainIntoLiving_commits (hid : keyedAnchor kind handle value = some id)
    (hdead : ∀ header value, w.store id = some (header, value) → header.removed = true)
    (hlast : ((chainIntoLiving kind handle chains id none value).runIn w).2.last < 2 ^ 64 - 1) :
    Commits kind handle chains w (.insert value)
      ((chainIntoLiving kind handle chains id none value).runIn w) := by
  cases hstore : w.store id with
  | none =>
    have hauthor : Authors (savePlan kind handle chains id none true) chains.instantFloor
        (savePlan kind handle chains id none true).firstMeta w _ _ := runIn_author_none rfl _ _
    rw [runIn_chainIntoLiving_first hstore rfl hauthor] at hlast ⊢
    exact .effect le_rfl (World.floor_lt_of_minted hlast) (.enter hid hstore)
  | some stored =>
    obtain ⟨old, oldValue⟩ := stored
    cases hauthored : old.succession with
    | next successor =>
      rw [runIn_chainIntoLiving_archived hstore hauthored]
      exact .refused _ (.inl rfl)
    | createdAt authored =>
      have hauthor : Authors (savePlan kind handle chains id none true)
          (max authored chains.instantFloor)
          ((savePlan kind handle chains id none true).nextMeta old authored) w _ _ :=
        runIn_author_none rfl _ _
      rw [runIn_chainIntoLiving_next hstore hauthored rfl hauthor] at hlast ⊢
      have hlt := World.floor_lt_of_minted hlast
      have hauth : authored < w.minted (max authored chains.instantFloor) :=
        (le_max_left _ _).trans_lt hlt
      rw [Site.replaced, if_pos hauth]
      exact .effect (le_max_right _ _) hlt
        (.revive hid hstore hauthored (hdead _ _ hstore) hauth)

theorem upsertKeyed_commits (hid : keyedAnchor kind handle value = some id)
    (hlast : ((upsertKeyed kind handle chains id value).runIn w).2.last < 2 ^ 64 - 1) :
    Commits kind handle chains w (.insert value)
      ((upsertKeyed kind handle chains id value).runIn w) := by
  rw [upsertKeyed, Engine.runIn_bind_ok (runIn_anchor w id)] at hlast ⊢
  cases hstore : w.store id with
  | none =>
    simp only [hstore] at hlast ⊢
    exact chainIntoLiving_commits hid (by simp [hstore]) hlast
  | some stored =>
    obtain ⟨header, body⟩ := stored
    cases hlive : header.removed with
    | false =>
      simp only [hstore, Metadata.isLive, hlive, Bool.not_false, if_true] at hlast ⊢
      exact savePlanned_commits (by simp [hid])
        (.inr ⟨rfl, hid, header, body, hstore, hlive⟩) hlast
    | true =>
      simp only [hstore, Metadata.isLive, hlive, Bool.not_true, Bool.false_eq_true,
        if_false] at hlast ⊢
      refine chainIntoLiving_commits hid (fun header' body' h => ?_) hlast
      rw [hstore] at h
      cases h
      exact hlive

theorem insert_commits
    (hlast : ((insert kind handle chains value).runIn w).2.last < 2 ^ 64 - 1) :
    Commits kind handle chains w (.insert value) ((insert kind handle chains value).runIn w) := by
  cases hkey : kind.naturalKey with
  | some key =>
    have hid : keyedAnchor kind handle value =
        some (keyedId handle.tenant kind.hash (key value)) := by simp [keyedAnchor, hkey]
    simp only [insert, hid] at hlast ⊢
    exact upsertKeyed_commits hid hlast
  | none =>
    have hid : keyedAnchor kind handle value = none := by simp [keyedAnchor, hkey]
    have hmint : (mintFlooredId handle.tenant kind.hash chains.instantFloor :
        Engine (Stored T) Id).runIn w =
        (.ok (Id.new (w.minted chains.instantFloor) handle.tenant false (typeSalt kind.hash)),
          w.mint chains.instantFloor) := rfl
    simp only [insert, hid] at hlast ⊢
    rw [Engine.runIn_bind_ok hmint, insertAt, runIn_insertWithMeta rfl] at hlast ⊢
    exact .effect le_rfl (World.floor_lt_of_minted hlast) (.insert hkey rfl)

theorem save_commits (hlast : ((save kind handle chains id value).runIn w).2.last < 2 ^ 64 - 1) :
    Commits kind handle chains w (.save id value) ((save kind handle chains id value).runIn w) := by
  by_cases hid : ∀ a ∈ keyedAnchor kind handle value, a = id
  · exact savePlanned_commits hid (.inl rfl) hlast
  · rw [save, savePlanned, if_pos (not_not.mp (mt not_foreign_iff.mp hid))]
    exact .refused _ (.inl rfl)

theorem Commits.done {p : Engine (Stored T) (Chains × Change T)}
    (h : Commits kind handle chains w request (p.runIn w)) :
    Done kind handle chains w request
      ((p >>= fun r => (return (r.1, some r.2) : Engine (Stored T) _)).runIn w) := by
  generalize hr : p.runIn w = r at h
  cases h with
  | refused e hworld =>
    rw [Engine.runIn_bind_error hr]
    exact .refused e hworld
  | effect hfloor hlt heffect =>
    rw [Engine.runIn_bind_ok hr]
    exact .effect hfloor hlt heffect

theorem last_passed (p : Engine (Stored T) (Chains × Change T)) (w : World (Stored T)) :
    ((p >>= fun r => (return (r.1, some r.2) : Engine (Stored T) _)).runIn w).2 =
      (p.runIn w).2 := by
  simp only [Engine.runIn, Prog.run_bind]
  rcases p.run World.handle w with ⟨_ | _ | _, w'⟩ <;> rfl

theorem remove_done (hlast : ((remove kind chains id).runIn w).2.last < 2 ^ 64 - 1) :
    Done kind handle chains w (.remove id) ((remove kind chains id).runIn w) := by
  rw [remove, Engine.runIn_bind_ok (runIn_anchor w id)] at hlast ⊢
  cases hstore : w.store id with
  | none => exact .idle
  | some stored =>
    obtain ⟨header, body⟩ := stored
    cases hlive : header.removed with
    | true =>
      simp only [Metadata.isLive, hlive, Bool.not_true, Bool.false_eq_true, if_false]
      exact .idle
    | false =>
      simp only [hstore, Metadata.isLive, hlive, Bool.not_false, if_true] at hlast ⊢
      rw [Engine.runIn_bind_ok (Engine.runIn_mintInstant _ _),
        Engine.runIn_bind_ok (Engine.runIn_apply rfl)] at hlast ⊢
      have hlt := World.floor_lt_of_minted hlast
      cases hauthored : header.succession with
      | createdAt authored =>
        have heffect : Effect kind handle ⟨w.store, chains⟩ (w.minted chains.instantFloor)
            (.remove id) _ _ := .remove hstore hlive hauthored
        rw [hauthored] at heffect
        exact .effect le_rfl hlt heffect
      | next successor =>
        have heffect : Effect kind handle ⟨w.store, chains⟩ (w.minted chains.instantFloor)
            (.remove id) _ _ := .removeArchived hstore hlive hauthored
        rw [hauthored] at heffect
        exact .effect le_rfl hlt heffect

-- Every request ends: refused, idle, or with one effect.
theorem perform_done (request : Request T)
    (hlast : ((perform kind handle chains request).runIn w).2.last < 2 ^ 64 - 1) :
    Done kind handle chains w request ((perform kind handle chains request).runIn w) := by
  cases request with
  | insert value => exact (insert_commits (by rwa [perform, last_passed] at hlast)).done
  | save id value => exact (save_commits (by rwa [perform, last_passed] at hlast)).done
  | remove id => exact remove_done hlast

end Requests

end WaveDb.Collection
