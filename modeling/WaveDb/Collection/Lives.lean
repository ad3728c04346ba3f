import WaveDb.Collection.Instants
import WaveDb.Collection.KeyedRuns

-- A collection with everything its type declares, over its whole life.
namespace WaveDb.Collection

open WaveDb.Lib WaveDb.Core

variable {T F : Type} {d : Declaration T F} [LinearOrder F]

def Catalog.perform (handle : Handle) (cat : Catalog d) :
    Request T → Engine (Stored T) (Catalog d × Option (Change T))
  | .insert value => do
      let (cat, change) ← cat.insert handle value
      return (cat, some change)
  | .save id value => do
      let (cat, change) ← cat.save handle id value
      return (cat, some change)
  | .remove id => cat.remove id

inductive Followed (cat : Catalog d) (s : Store (Stored T)) :
    Request T → Change T → Catalog d → Prop
  | enter {value : T} {id : Id} {header : Metadata} {instant : Nat}
      (hinstant : header.succession = .createdAt instant)
      (hgone : d.naturalKey = none ∨ ∀ old ∈ s id, old.1.removed = true) :
      Followed cat s (.insert value) (.saved id header value)
        (cat.enter (.ofId id) instant (header, value))
  | move {request : Request T} {value oldValue : T} {id : Id} {header old : Metadata}
      {authored instant : Nat}
      (hrequest : request = .save id value ∨ d.naturalKey ≠ none ∧ old.removed = false)
      (hold : s id = some (old, oldValue)) (hauthored : old.succession = .createdAt authored)
      (hinstant : header.succession = .createdAt instant) :
      Followed cat s request (.saved id header value)
        (cat.move (.ofId id) authored instant (header, value) oldValue)
  | skip {value : T} {id : Id} {header : Metadata} (hvacant : s id = none) :
      Followed cat s (.save id value) (.saved id header value) cat
  | leave {id : Id} {header : Metadata} {value : T} {removedAt : Nat}
      (hold : s id = some (header, value)) :
      Followed cat s (.remove id) (.removed id removedAt)
        (cat.leave (.ofId id) header.succession removedAt value)

section Inversion

variable [DecidableEq T] {handle : Handle} {cat cat' : Catalog d} {w w' : World (Stored T)}
  {id : Id} {value : T} {change : Change T}

-- A planned save has read the anchor: either nothing was there, or a version
-- that the new one follows.
theorem planChainedSave_ok {plan : SavePlan} {batch : List (Write (Stored T))}
    {old : Option (Nat × T)} {header : Metadata}
    (h : (planChainedSave plan value).runIn w = (.ok (batch, old, header), w')) :
    (w.store plan.liveId = none ∧ old = none) ∨
      ∃ oldMeta oldValue authored instant, w.store plan.liveId = some (oldMeta, oldValue) ∧
        oldMeta.succession = .createdAt authored ∧ header.succession = .createdAt instant ∧
        old = some (authored, oldValue) := by
  rw [planChainedSave, Engine.runIn_bind_ok (Engine.runIn_getOf _ _ _)] at h
  cases hstore : w.store plan.liveId with
  | none =>
    rw [hstore] at h
    obtain ⟨header', w₁, -, hend⟩ := Prog.run_bind_eq_ok.mp h
    cases hend
    exact .inl ⟨rfl, rfl⟩
  | some stored =>
    obtain ⟨oldMeta, oldValue⟩ := stored
    rw [hstore] at h
    cases hauthored : oldMeta.succession with
    | next successor =>
      simp only [hauthored] at h
      cases h
    | createdAt authored =>
      simp only [hauthored] at h
      obtain ⟨live, w₁, -, hend⟩ := Prog.run_bind_eq_ok.mp h
      cases hinstant : live.succession with
      | next successor =>
        simp only [hinstant] at hend
        cases hend
      | createdAt instant =>
        simp only [hinstant] at hend
        cases hend
        exact .inr ⟨oldMeta, oldValue, authored, instant, rfl, hauthored, hinstant, rfl⟩

theorem savePlanned_ok {imposed : Option Metadata}
    (h : (cat.savePlanned handle id value imposed).runIn w = (.ok (cat', change), w')) :
    ∃ header, change = .saved id header value ∧
      ((w.store id = none ∧ cat' = cat) ∨
        ∃ old oldValue authored instant, w.store id = some (old, oldValue) ∧
          old.succession = .createdAt authored ∧ header.succession = .createdAt instant ∧
          cat' = cat.move (.ofId id) authored instant (header, value) oldValue) := by
  rw [Catalog.savePlanned] at h
  split at h
  · cases h
  · obtain ⟨⟨batch, old, header⟩, w₁, hplan, hrest⟩ := Prog.run_bind_eq_ok.mp h
    obtain ⟨moved, w₂, hmoved, hrest⟩ := Prog.run_bind_eq_ok.mp hrest
    obtain ⟨u, w₃, -, hend⟩ := Prog.run_bind_eq_ok.mp hrest
    cases hend
    refine ⟨header, rfl, ?_⟩
    rcases planChainedSave_ok hplan with ⟨hvacant, rfl⟩ |
      ⟨oldMeta, oldValue, authored, instant, hstore, hauthored, hinstant, rfl⟩
    · refine .inl ⟨hvacant, ?_⟩
      simp only [Catalog.planReindex] at hmoved
      split at hmoved
      · cases hmoved
      · cases hmoved
        rfl
    · refine .inr ⟨oldMeta, oldValue, authored, instant, hstore, hauthored, hinstant, ?_⟩
      simp only [Catalog.planReindex, hinstant] at hmoved
      cases hmoved
      rfl

theorem chainIntoLiving_ok {imposed : Option Metadata}
    (h : (cat.chainIntoLiving handle id imposed value).runIn w = (.ok (cat', change), w')) :
    ∃ header instant, change = .saved id header value ∧ header.succession = .createdAt instant ∧
      cat' = cat.enter (.ofId id) instant (header, value) := by
  obtain ⟨⟨batch, old, header⟩, w₁, -, hrest⟩ := Prog.run_bind_eq_ok.mp h
  cases hinstant : header.succession with
  | next successor =>
    simp only [hinstant] at hrest
    cases hrest
  | createdAt instant =>
    simp only [hinstant] at hrest
    obtain ⟨u, w₂, -, hend⟩ := Prog.run_bind_eq_ok.mp hrest
    cases hend
    exact ⟨header, instant, rfl, hinstant, rfl⟩

theorem insert_followed (h : (cat.insert handle value).runIn w = (.ok (cat', change), w')) :
    Followed cat w.store (.insert value) change cat' := by
  rw [Catalog.insert] at h
  cases hkey : d.naturalKey with
  | none =>
    have hid : keyedAnchor d.kind handle value = none := by
      simp [keyedAnchor, Declaration.kind, hkey]
    simp only [hid] at h
    obtain ⟨id, w₁, -, hrest⟩ := Prog.run_bind_eq_ok.mp h
    obtain ⟨u, w₂, -, hend⟩ := Prog.run_bind_eq_ok.mp hrest
    cases hend
    exact .enter rfl (.inl hkey)
  | some key =>
    have hid : keyedAnchor d.kind handle value =
        some (keyedId handle.tenant d.hash (key value)) := by
      simp [keyedAnchor, Declaration.kind, hkey]
    simp only [hid] at h
    rw [Catalog.upsertKeyed, Engine.runIn_bind_ok (runIn_anchor w _)] at h
    cases hstore : w.store (keyedId handle.tenant d.hash (key value)) with
    | none =>
      rw [hstore] at h
      obtain ⟨header, instant, rfl, hinstant, rfl⟩ := chainIntoLiving_ok h
      exact .enter hinstant (.inr (by simp [hstore]))
    | some stored =>
      obtain ⟨old, oldValue⟩ := stored
      rw [hstore] at h
      cases hlive : old.removed with
      | true =>
        simp only [Metadata.isLive, hlive, Bool.not_true, Bool.false_eq_true, if_false] at h
        obtain ⟨header, instant, rfl, hinstant, rfl⟩ := chainIntoLiving_ok h
        exact .enter hinstant (.inr (by simp [hstore, hlive]))
      | false =>
        simp only [Metadata.isLive, hlive, Bool.not_false, if_true] at h
        obtain ⟨header, rfl, ⟨hvacant, -⟩ |
          ⟨old', oldValue', authored, instant, hold, hauthored, hinstant, rfl⟩⟩ := savePlanned_ok h
        · rw [hstore] at hvacant
          cases hvacant
        · cases hstore.symm.trans hold
          exact .move (.inr ⟨by simp [hkey], hlive⟩) hstore hauthored hinstant

theorem save_followed (h : (cat.save handle id value).runIn w = (.ok (cat', change), w')) :
    Followed cat w.store (.save id value) change cat' := by
  obtain ⟨header, rfl, ⟨hvacant, rfl⟩ |
    ⟨old, oldValue, authored, instant, hold, hauthored, hinstant, rfl⟩⟩ := savePlanned_ok h
  · exact .skip hvacant
  · exact .move (.inl rfl) hold hauthored hinstant

theorem remove_followed (h : (cat.remove id).runIn w = (.ok (cat', some change), w')) :
    Followed cat w.store (.remove id) change cat' := by
  rw [Catalog.remove, Engine.runIn_bind_ok (runIn_anchor w _)] at h
  cases hstore : w.store id with
  | none =>
    rw [hstore] at h
    cases h
  | some stored =>
    obtain ⟨header, body⟩ := stored
    rw [hstore] at h
    cases hlive : header.removed with
    | true =>
      simp only [Metadata.isLive, hlive, Bool.not_true, Bool.false_eq_true, if_false] at h
      cases h
    | false =>
      simp only [Metadata.isLive, hlive, Bool.not_false, if_true] at h
      obtain ⟨removedAt, w₁, -, hrest⟩ := Prog.run_bind_eq_ok.mp h
      obtain ⟨u, w₂, -, hend⟩ := Prog.run_bind_eq_ok.mp hrest
      cases hend
      exact .leave hstore

theorem perform_followed {request : Request T}
    (h : (cat.perform handle request).runIn w = (.ok (cat', some change), w')) :
    Followed cat w.store request change cat' := by
  cases request with
  | insert value =>
    obtain ⟨⟨cat₁, change₁⟩, w₁, hrun, hend⟩ := Prog.run_bind_eq_ok.mp h
    cases hend
    exact insert_followed hrun
  | save id value =>
    obtain ⟨⟨cat₁, change₁⟩, w₁, hrun, hend⟩ := Prog.run_bind_eq_ok.mp h
    cases hend
    exact save_followed hrun
  | remove id => exact remove_followed h

theorem perform_idle {request : Request T}
    (h : (cat.perform handle request).runIn w = (.ok (cat', none), w')) : cat' = cat := by
  cases request with
  | insert value =>
    obtain ⟨⟨cat₁, change₁⟩, w₁, hrun, hend⟩ := Prog.run_bind_eq_ok.mp h
    cases hend
  | save id value =>
    obtain ⟨⟨cat₁, change₁⟩, w₁, hrun, hend⟩ := Prog.run_bind_eq_ok.mp h
    cases hend
  | remove id =>
    obtain ⟨found, w₁, -, hrest⟩ := Prog.run_bind_eq_ok.mp h
    cases found with
    | living header value =>
      obtain ⟨removedAt, w₂, -, hrest⟩ := Prog.run_bind_eq_ok.mp hrest
      obtain ⟨u, w₃, -, hend⟩ := Prog.run_bind_eq_ok.mp hrest
      cases hend
    | dead =>
      cases hrest
      rfl
    | vacant =>
      cases hrest
      rfl

omit [DecidableEq T] in
theorem onChains_perform (request : Request T) :
    Catalog.onChains (cat.perform handle request) = perform d.kind handle cat.chains request := by
  cases request with
  | insert value =>
    rw [perform, ← Catalog.onChains_insert]
    simp only [Catalog.onChains, Catalog.perform, bind_assoc, pure_bind]
  | save id value =>
    rw [perform, ← Catalog.onChains_save]
    simp only [Catalog.onChains, Catalog.perform, bind_assoc, pure_bind]
  | remove id => exact Catalog.onChains_remove

omit [LinearOrder F] in
theorem runIn_onChains {A : Type} (p : Engine (Stored T) (Catalog d × A)) (w : World (Stored T)) :
    (Catalog.onChains p).runIn w = match p.runIn w with
      | (.ok (cat, a), w') => (.ok (cat.chains, a), w')
      | (.error e, w') => (.error e, w')
      | (.stuck, w') => (.stuck, w') := by
  rw [Catalog.onChains, Engine.runIn, Prog.run_bind, Engine.runIn]
  rcases Prog.run World.handle p w with ⟨_ | _ | _, w'⟩ <;> rfl

end Inversion

section Life

-- The living records of a collection by anchor, each with its instant.
abbrev Living (T : Type) := LocalId → Option (Nat × Stored T)

def Living.after (living : Living T) : Change T → Living T
  | .saved id header value => Function.update living (.ofId id)
      ((Change.saved id header value).instant.map fun instant => (instant, header, value))
  | .removed id _ => Function.update living (.ofId id) none

-- Saves are of living records. A removal may name any id of the tenant.
def Request.Within (tenant : Nat) (living : Living T) : Request T → Prop
  | .insert _ => True
  | .save id _ => id.tenant = tenant ∧ (living (.ofId id)).isSome
  | .remove id => id.tenant = tenant

-- An anchor has the flag down, and what is living is what the store has there.
structure Faithful (tenant : Nat) (x : Whole d) (living : Living T) : Prop where
  held : Held living x.catalog
  ordered : x.catalog.chains.Ordered
  anchors : ∀ a : LocalId, living a = if a.flag then none else livingRecord (x.store (a.toId tenant))
  created : ∀ (a : LocalId) (stored : Stored T), a.flag = false →
    x.store (a.toId tenant) = some stored → ∃ instant, stored.1.succession = .createdAt instant
  fresh : d.naturalKey = none → ∀ a : LocalId, a.flag = false → x.store (a.toId tenant) ≠ none →
    a.key ≤ x.catalog.chains.instantFloor

section Steps

variable {tenant instant : Nat} {x : Whole d} {living : Living T} {cat' : Catalog d}
  {s' : Store (Stored T)} {a : LocalId}

theorem toId_ofId {id : Id} (h : id.tenant = tenant) : (LocalId.ofId id).toId tenant = id := by
  subst h
  rfl

theorem Grown.floor_le {before after : Chains} (h : Grown before after instant)
    (hinstant : before.instantFloor < instant) : before.instantFloor ≤ after.instantFloor := by
  rcases h.holds with heq | hholds
  · rw [heq]
  · exact hinstant.le.trans (h.ordered.le_floor hholds)

theorem Faithful.written (h : Faithful tenant x living) {r : Stored T} (hflag : a.flag = false)
    (hr : s' (a.toId tenant) = some r)
    (hother : ∀ b : LocalId, b.flag = false → b ≠ a → s' (b.toId tenant) = x.store (b.toId tenant))
    (hcreated : ∃ instant, r.1.succession = .createdAt instant)
    (hheld : Held (Function.update living a (livingRecord (some r))) cat')
    (hordered : cat'.chains.Ordered)
    (hfloor : x.catalog.chains.instantFloor ≤ cat'.chains.instantFloor)
    (hkey : d.naturalKey = none → a.key ≤ cat'.chains.instantFloor) :
    Faithful tenant ⟨s', cat'⟩ (Function.update living a (livingRecord (some r))) := by
  refine ⟨hheld, hordered, fun b => ?_, fun b stored hb hstored => ?_, fun hkeyless b hb hne => ?_⟩
  · change _ = if b.flag then none else livingRecord (s' (b.toId tenant))
    by_cases hba : b = a
    · rw [hba, Function.update_self, hflag, hr]
      rfl
    · rw [Function.update_of_ne hba, h.anchors]
      cases hb : b.flag with
      | true => rfl
      | false => rw [hother b hb hba]
  · by_cases hba : b = a
    · rw [hba] at hstored
      cases hr.symm.trans hstored
      exact hcreated
    · exact h.created b stored hb ((hother b hb hba).symm.trans hstored)
  · by_cases hba : b = a
    · rw [hba]
      exact hkey hkeyless
    · exact (h.fresh hkeyless b hb (hother b hb hba ▸ hne)).trans hfloor

theorem Faithful.kept (h : Faithful tenant x living)
    (hother : ∀ b : LocalId, b.flag = false → s' (b.toId tenant) = x.store (b.toId tenant))
    (hheld : Held living cat') (hordered : cat'.chains.Ordered)
    (hfloor : x.catalog.chains.instantFloor ≤ cat'.chains.instantFloor) :
    Faithful tenant ⟨s', cat'⟩ living := by
  refine ⟨hheld, hordered, fun b => ?_, fun b stored hb hstored => ?_, fun hkeyless b hb hne => ?_⟩
  · change _ = if b.flag then none else livingRecord (s' (b.toId tenant))
    rw [h.anchors]
    cases hb : b.flag with
    | true => rfl
    | false => rw [hother b hb]
  · exact h.created b stored hb ((hother b hb).symm.trans hstored)
  · exact (h.fresh hkeyless b hb (hother b hb ▸ hne)).trans hfloor

theorem Faithful.living_of_store (h : Faithful tenant x living) (hflag : a.flag = false)
    {header : Metadata} {value : T} (hstore : x.store (a.toId tenant) = some (header, value))
    (hlive : header.removed = false) {authored : Nat} (hauthored : header.succession = .createdAt authored) :
    living a = some (authored, header, value) := by
  rw [h.anchors, hflag, hstore]
  simp [livingRecord, hauthored, hlive]

theorem Faithful.store_of_living (h : Faithful tenant x living) {authored : Nat} {stored : Stored T}
    (hliving : living a = some (authored, stored)) : x.store (a.toId tenant) = some stored := by
  rw [h.anchors] at hliving
  split at hliving
  · cases hliving
  · exact (livingRecord_eq_some.mp hliving).1

theorem Faithful.gone_of_store (h : Faithful tenant x living)
    (hstore : ∀ stored ∈ x.store (a.toId tenant), stored.1.removed = true) : living a = none := by
  rw [h.anchors]
  cases hs : x.store (a.toId tenant) with
  | none => simp [livingRecord]
  | some stored =>
    have hdead := hstore stored hs
    cases hsucc : stored.1.succession <;> simp [livingRecord, hsucc, hdead]

variable {handle : Handle} {request : Request T} {change : Change T} {site : Site T} {id : Id}
  {value oldValue : T}

theorem ofId_toId_ne {b : LocalId} (h : b ≠ .ofId id) : b.toId tenant ≠ id := by
  rintro rfl
  exact h rfl

theorem Faithful.first (h : Faithful tenant x living) (htenant : id.tenant = tenant)
    (hflag : (LocalId.ofId id).flag = false) (hgone : living (.ofId id) = none)
    (hgrown : Grown x.catalog.chains (x.catalog.enter (.ofId id) instant (handle.firstMeta instant, value)).chains instant)
    (hinstant : x.catalog.chains.instantFloor < instant)
    (hkey : d.naturalKey = none → (LocalId.ofId id).key ≤ instant) :
    Faithful tenant ⟨Function.update x.store id (some (handle.firstMeta instant, value)),
        x.catalog.enter (.ofId id) instant (handle.firstMeta instant, value)⟩
      (living.after (.saved id (handle.firstMeta instant) value)) := by
  have hholds : (x.catalog.enter (.ofId id) instant (handle.firstMeta instant, value)).chains.Holds instant :=
    ⟨⟨instant, .ofId id⟩, .inl (self_mem_chainInsert _ _), rfl⟩
  refine h.written (r := (handle.firstMeta instant, value)) hflag ?_ (fun b _ hb => ?_) ⟨instant, rfl⟩
    (h.held.enter hgone) hgrown.ordered (hgrown.floor_le hinstant) fun hkeyless =>
      (hkey hkeyless).trans (hgrown.ordered.le_floor hholds)
  · rw [toId_ofId htenant, Function.update_self]
  · rw [Function.update_of_ne (ofId_toId_ne hb)]

theorem slot_flag (kind : Kind T) (handle : Handle) (authored : Nat) :
    (LocalId.ofId (kind.slot handle authored)).flag = true := archiveId_flag ..

theorem Faithful.next (h : Faithful tenant x living) (htenant : id.tenant = tenant)
    (hflag : (LocalId.ofId id).flag = false) {old : Stored T} (hold : x.store id = some old)
    {header : Metadata} (hcreated : header.succession = .createdAt instant)
    (hlive : header.removed = false) {authored : Nat}
    (hheld : Held (Function.update living (.ofId id) (some (instant, header, value))) cat')
    (hgrown : Grown x.catalog.chains cat'.chains instant)
    (hinstant : x.catalog.chains.instantFloor < instant) :
    Faithful tenant ⟨Site.next ⟨x.store, x.catalog.chains⟩ (d.kind.slot handle authored) id old instant
      header value, cat'⟩ (living.after (.saved id header value)) := by
  have hafter : living.after (.saved id header value) =
      Function.update living (.ofId id) (livingRecord (some (header, value))) := by
    simp [Living.after, Change.instant, livingRecord, hcreated, hlive]
  have hrecord : livingRecord (some (header, value)) = some (instant, header, value) := by
    simp [livingRecord, hcreated, hlive]
  rw [hafter]
  refine h.written hflag ?_ (fun b hb hne => ?_) ⟨instant, hcreated⟩ (by rwa [hrecord]) hgrown.ordered
    (hgrown.floor_le hinstant) fun hkeyless => ?_
  · rw [toId_ofId htenant, Site.next, Function.update_self]
  · have hslot : b.toId tenant ≠ d.kind.slot handle authored := fun heq => by
      have hup := slot_flag d.kind handle authored
      rw [← heq, LocalId.ofId_toId, hb] at hup
      cases hup
    rw [Site.next, Function.update_of_ne (ofId_toId_ne hne), Function.update_of_ne hslot]
  · refine (h.fresh hkeyless _ hflag ?_).trans (hgrown.floor_le hinstant)
    rw [toId_ofId htenant, hold]
    simp

theorem Faithful.removed (h : Faithful tenant x living) (htenant : id.tenant = tenant)
    {header : Metadata} (hold : x.store id = some (header, value)) (hlive : header.removed = false)
    (hgrown : Grown x.catalog.chains
      (x.catalog.leave (.ofId id) header.succession instant value).chains instant)
    (hinstant : x.catalog.chains.instantFloor < instant) :
    Faithful tenant ⟨Function.update x.store id (some ({ header with removed := true }, value)),
        x.catalog.leave (.ofId id) header.succession instant value⟩
      (living.after (.removed id instant)) := by
  cases hflag : (LocalId.ofId id).flag with
  | true =>
    have hgone : living (.ofId id) = none := by rw [h.anchors, hflag]; rfl
    rw [Living.after, ← hgone, Function.update_eq_self]
    refine h.kept (fun b hb => ?_) (h.held.leave_vacant hgone _ _ _) hgrown.ordered
      (hgrown.floor_le hinstant)
    rw [Function.update_of_ne (ofId_toId_ne fun heq => ?_)]
    rw [heq, hflag] at hb
    cases hb
  | false =>
    have hstore : x.store ((LocalId.ofId id).toId tenant) = some (header, value) := by
      rw [toId_ofId htenant, hold]
    obtain ⟨authored, hauthored⟩ := h.created _ _ hflag hstore
    have hliving := h.living_of_store hflag hstore hlive hauthored
    have hafter : living.after (.removed id instant) = Function.update living (.ofId id)
        (livingRecord (some ({ header with removed := true }, value))) := by
      have hrecord : livingRecord (some ({ header with removed := true }, value)) = none := by
        simp only [livingRecord, if_true]
        cases header.succession <;> rfl
      rw [hrecord]
      rfl
    rw [hafter]
    refine h.written hflag ?_ (fun b _ hne => ?_) ⟨authored, hauthored⟩ ?_ hgrown.ordered
      (hgrown.floor_le hinstant) fun hkeyless => ?_
    · rw [toId_ofId htenant, Function.update_self]
    · rw [Function.update_of_ne (ofId_toId_ne hne)]
    · rw [← hafter, hauthored]
      exact h.held.leave hliving instant
    · refine (h.fresh hkeyless _ hflag ?_).trans (hgrown.floor_le hinstant)
      rw [hstore]
      simp

omit [LinearOrder F] in
theorem keyedAnchor_flag (h : keyedAnchor d.kind handle value = some id) :
    (LocalId.ofId id).flag = false ∧ id.tenant = handle.tenant ∧ d.naturalKey ≠ none := by
  cases hkey : d.naturalKey with
  | none => simp [keyedAnchor, Declaration.kind, hkey] at h
  | some key =>
    simp only [keyedAnchor, Declaration.kind, hkey, Option.map_some, Option.some.injEq] at h
    subst h
    exact ⟨Id.new_flag .., rfl, by simp⟩

theorem Faithful.saved_living (h : Faithful tenant x living) (htenant : id.tenant = tenant)
    (hliving : (living (.ofId id)).isSome) {old : Metadata} (hold : x.store id = some (old, oldValue)) :
    (LocalId.ofId id).flag = false ∧ old.removed = false := by
  rw [h.anchors, toId_ofId htenant, hold] at hliving
  cases hflag : (LocalId.ofId id).flag with
  | true => simp [hflag] at hliving
  | false =>
    cases hremoved : old.removed with
    | false => exact ⟨rfl, rfl⟩
    | true => cases hsucc : old.succession <;> simp [hflag, livingRecord, hsucc, hremoved] at hliving

theorem Faithful.effect (h : Faithful tenant x living) (htenant : handle.tenant = tenant)
    (hwithin : request.Within tenant living) (hinstant : x.catalog.chains.instantFloor < instant)
    (heffect : Effect d.kind handle ⟨x.store, x.catalog.chains⟩ instant request change site)
    (hfollow : Followed x.catalog x.store request change cat') (hchains : cat'.chains = site.chains) :
    Faithful tenant ⟨site.store, cat'⟩ (living.after change) := by
  have hgrown := (heffect.grown h.ordered).1
  rw [← hchains] at hgrown
  cases heffect with
  | @insert value id hkind hid =>
    cases hfollow with
    | enter hcreated hgone =>
      cases hcreated
      have hflag : (LocalId.ofId id).flag = false := by rw [hid]; exact Id.new_flag ..
      have htenant' : id.tenant = tenant := by rw [hid]; exact htenant
      have hvacant : x.store ((LocalId.ofId id).toId tenant) = none := by
        by_contra hne
        have hle := h.fresh hkind _ hflag hne
        rw [hid] at hle
        exact absurd hle (not_le.mpr hinstant)
      refine h.first htenant' hflag (h.gone_of_store (by simp [hvacant])) hgrown hinstant fun _ => ?_
      rw [hid]
      exact le_rfl
    | move hrequest =>
      rcases hrequest with hsave | ⟨hkeyed, -⟩
      · cases hsave
      · exact absurd hkind hkeyed
  | @enter value id hid hvacant =>
    obtain ⟨hflag, hanchor, hkeyed⟩ := keyedAnchor_flag hid
    have htenant' := hanchor.trans htenant
    cases hfollow with
    | enter hcreated hgone =>
      cases hcreated
      refine h.first htenant' hflag (h.gone_of_store ?_) hgrown hinstant fun hkeyless =>
        absurd hkeyless hkeyed
      rw [toId_ofId htenant']
      simp [show x.store id = none from hvacant]
    | move _ hold => cases hvacant.symm.trans hold
  | @first value id _ hvacant =>
    obtain ⟨htenant', hliving⟩ := hwithin
    rw [h.anchors, toId_ofId htenant', show x.store id = none from hvacant] at hliving
    simp [livingRecord] at hliving
  | @next request value oldValue id old authored hid hrequest hold hauthored hlt =>
    have hplace : id.tenant = tenant ∧ (LocalId.ofId id).flag = false ∧ old.removed = false := by
      rcases hrequest with rfl | ⟨rfl, hid, hlive⟩
      · exact ⟨hwithin.1, h.saved_living hwithin.1 hwithin.2 hold⟩
      · obtain ⟨hflag, hanchor, -⟩ := keyedAnchor_flag hid
        exact ⟨hanchor.trans htenant, hflag, hlive⟩
    obtain ⟨htenant', hflag, hlive⟩ := hplace
    cases hfollow with
    | enter hcreated hgone =>
      rcases hrequest with hsave | ⟨-, hid, -⟩
      · cases hsave
      · rcases hgone with hkeyless | hdead
        · exact absurd hkeyless (keyedAnchor_flag hid).2.2
        · rw [hdead _ hold] at hlive
          cases hlive
    | move _ hold' hauthored' hcreated =>
      cases hold.symm.trans hold'
      cases hauthored.symm.trans hauthored'
      cases hcreated
      have hliving := h.living_of_store hflag ((congrArg x.store (toId_ofId htenant')).trans hold)
        hlive hauthored
      exact h.next htenant' hflag hold rfl (by simp [Handle.nextMeta, hlive])
        (h.held.move hliving) hgrown hinstant
    | skip hvacant => cases hvacant.symm.trans hold
  | @revive value oldValue id old authored hid hold hauthored hdead hlt =>
    obtain ⟨hflag, hanchor, hkeyed⟩ := keyedAnchor_flag hid
    have htenant' := hanchor.trans htenant
    cases hfollow with
    | enter hcreated hgone =>
      cases hcreated
      have hgone' : living (.ofId id) = none := by
        refine h.gone_of_store ?_
        rw [toId_ofId htenant', show x.store id = some (old, oldValue) from hold]
        simp [hdead]
      exact h.next htenant' hflag hold rfl rfl (h.held.enter hgone') hgrown hinstant
    | move hrequest hold' =>
      cases hold.symm.trans hold'
      rcases hrequest with hsave | ⟨-, hlive⟩
      · cases hsave
      · rw [hdead] at hlive
        cases hlive
  | remove hold hlive _ =>
    cases hfollow with
    | leave hold' =>
      cases hold.symm.trans hold'
      exact h.removed hwithin hold hlive hgrown hinstant
  | removeArchived hold hlive _ =>
    cases hfollow with
    | leave hold' =>
      cases hold.symm.trans hold'
      exact h.removed hwithin hold hlive hgrown hinstant

end Steps

variable [DecidableEq T]

def Whole.after (x : Whole d) :
    Outcome Error (Catalog d × Option (Change T)) × World (Stored T) → Whole d
  | (.ok (cat, _), w) => ⟨w.store, cat⟩
  | (_, w) => ⟨w.store, x.catalog⟩

def Living.answered (living : Living T) :
    Outcome Error (Catalog d × Option (Change T)) × World (Stored T) → Living T
  | (.ok (_, some change), _) => living.after change
  | _ => living

-- The collections that can be built. An operation runs in any process, with
-- clock readings and a watermark of its own, and may be refused.
inductive Built (d : Declaration T F) (tenant : Nat) : Whole d → Living T → Prop
  | create (store : Store (Stored T)) (hempty : ∀ a : LocalId, store (a.toId tenant) = none) :
      Built d tenant ⟨store, .empty d⟩ fun _ => none
  | operate {x : Whole d} {living : Living T} {w : World (Stored T)} (handle : Handle)
      (request : Request T) (h : Built d tenant x living) (htenant : handle.tenant = tenant)
      (hrequest : request.Within tenant living) (hworld : w.store = x.store)
      (hlast : ((x.catalog.perform handle request).runIn w).2.last < 2 ^ 64 - 1) :
      Built d tenant (x.after ((x.catalog.perform handle request).runIn w))
        (living.answered ((x.catalog.perform handle request).runIn w))

omit [DecidableEq T] in
theorem Faithful.empty {tenant : Nat} {store : Store (Stored T)}
    (hempty : ∀ a : LocalId, store (a.toId tenant) = none) :
    Faithful tenant ⟨store, .empty d⟩ fun _ => none where
  held := {
    recency := .nil fun _ => rfl
    lists := fun _ => .nil fun _ => rfl
    secondaries := fun _ => .nil fun _ => rfl
    fuzzy := fun _ => .nil fun _ => rfl }
  ordered := ⟨List.Pairwise.nil, List.Pairwise.nil⟩
  anchors a := by simp [hempty, livingRecord]
  created a stored _ h := by simp [hempty] at h
  fresh _ a _ h := absurd (hempty a) h

theorem Faithful.operate {tenant : Nat} {x : Whole d} {living : Living T} {w : World (Stored T)}
    {handle : Handle} {request : Request T} (h : Faithful tenant x living)
    (htenant : handle.tenant = tenant) (hrequest : request.Within tenant living)
    (hworld : w.store = x.store)
    (hlast : ((x.catalog.perform handle request).runIn w).2.last < 2 ^ 64 - 1) :
    Faithful tenant (x.after ((x.catalog.perform handle request).runIn w))
      (living.answered ((x.catalog.perform handle request).runIn w)) := by
  have hchains := runIn_onChains (x.catalog.perform handle request) w
  rw [onChains_perform] at hchains
  rcases hrun : (x.catalog.perform handle request).runIn w with ⟨⟨cat', answer⟩ | e | _, w'⟩
  all_goals
    rw [hrun] at hchains hlast
    simp only at hchains
    have hdone : Done d.kind handle x.catalog.chains w request
        ((perform d.kind handle x.catalog.chains request).runIn w) :=
      perform_done request (by rw [hchains]; exact hlast)
    have hend := hchains.symm
    generalize (perform d.kind handle x.catalog.chains request).runIn w = result at hdone hend
  · cases answer with
    | none =>
      obtain rfl := perform_idle hrun
      have hstore : w'.store = x.store := by
        cases hdone with
        | refused e hsame => cases hend
        | idle => exact (congrArg World.store (Prod.mk.inj hend).2).trans hworld
        | effect hfloor hlt heffect => simp at hend
      change Faithful tenant ⟨w'.store, x.catalog⟩ living
      rw [hstore]
      exact h
    | some change =>
      have hfollow := perform_followed hrun
      rw [hworld] at hfollow
      cases hdone with
      | refused e hsame => cases hend
      | idle => simp at hend
      | @effect floor _ site hfloor hlt heffect =>
        simp only [Prod.mk.injEq, Outcome.ok.injEq, Option.some.injEq] at hend
        obtain ⟨⟨hsite, rfl⟩, rfl⟩ := hend
        rw [hworld] at heffect
        exact h.effect htenant hrequest (hfloor.trans_lt hlt) heffect hfollow hsite
  · have hstore : w'.store = x.store := by
      cases hdone with
      | refused e hsame =>
        obtain ⟨-, rfl⟩ := Prod.mk.inj hend
        rcases hsame with rfl | ⟨floor, rfl⟩
        · exact hworld
        · exact hworld
      | idle => cases hend
      | effect hfloor hlt heffect => cases hend
    change Faithful tenant ⟨w'.store, x.catalog⟩ living
    rw [hstore]
    exact h
  · cases hdone <;> cases hend

theorem Built.faithful {tenant : Nat} {x : Whole d} {living : Living T} (h : Built d tenant x living) :
    Faithful tenant x living := by
  induction h with
  | create store hempty => exact .empty hempty
  | operate handle request _ htenant hrequest hworld hlast ih =>
    exact ih.operate htenant hrequest hworld hlast

end Life

end WaveDb.Collection
