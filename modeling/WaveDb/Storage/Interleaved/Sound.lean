import WaveDb.Storage.Interleaved

-- What holds between the caches, the tombstones, the queue and the pages at
-- every lock.
namespace WaveDb.Storage.Interleaved

open WaveDb.Lib WaveDb.Core

section Queue

variable {hash : Nat} {id : Id}

theorem queued_noteTouched (queue : Touched) (h : Nat) (i : Id) :
    Queued (noteTouched queue h i) hash id ↔ Queued queue hash id ∨ (h = hash ∧ i = id) := by
  have hone : noteTouched queue h i = requeueOne queue (h, [i]) := rfl
  rw [hone, queued_requeueOne, List.mem_singleton, eq_comm (a := id)]

theorem queued_foldl_note (keys : List (Nat × Id)) (queue : Touched) :
    Queued (keys.foldl (fun touched key => noteTouched touched key.1 key.2) queue) hash id ↔
      Queued queue hash id ∨ (hash, id) ∈ keys := by
  induction keys generalizing queue with
  | nil => simp
  | cons key keys ih =>
    obtain ⟨h, i⟩ := key
    rw [List.foldl_cons, ih, queued_noteTouched, List.mem_cons, Prod.mk.injEq, or_assoc,
      eq_comm (a := h), eq_comm (a := i)]

theorem mergeTouched_eq (pending touched : Touched) : mergeTouched pending touched =
    (touched.flatMap fun t => t.2.map (t.1, ·)).foldl (fun queue key => noteTouched queue key.1 key.2) pending := by
  simp only [mergeTouched, List.foldl_flatMap, List.foldl_map]

theorem queued_mergeTouched (pending touched : Touched) :
    Queued (mergeTouched pending touched) hash id ↔ Queued pending hash id ∨ Queued touched hash id := by
  rw [mergeTouched_eq, queued_foldl_note]
  refine or_congr_right ?_
  simp only [List.mem_flatMap, List.mem_map, Prod.mk.injEq, Queued]
  constructor
  · rintro ⟨t, ht, i, hi, rfl, rfl⟩
    exact ⟨t, ht, rfl, hi⟩
  · rintro ⟨t, ht, rfl, hi⟩
    exact ⟨t, ht, id, hi, rfl, rfl⟩

theorem evictUpTo_suffix (target : Nat) (cache : Records) : (evictUpTo target cache).2 <:+ cache := by
  induction cache generalizing target with
  | nil => exact List.suffix_rfl
  | cons r cache ih =>
    obtain ⟨id, bytes⟩ := r
    rw [evictUpTo]
    split
    · exact (ih _).trans (List.suffix_cons _ _)
    · exact List.suffix_rfl

theorem get_evictUpTo {cache : Records} (hsorted : Ascending Prod.fst cache) (target : Nat) (id : Id) :
    (evictUpTo target cache).2.get id = none ∨ (evictUpTo target cache).2.get id = cache.get id := by
  cases hget : (evictUpTo target cache).2.get id with
  | none => exact .inl rfl
  | some bytes =>
    have hmem := (evictUpTo_suffix target cache).subset (Table.mem_of_get hget)
    exact .inr (Table.get_of_mem hsorted hmem).symm

end Queue

section Writes

variable (w : Routed) {id : Id}

theorem get_cacheWrite (cache : Records) :
    (w.cacheWrite cache).get id = if w.id = id then w.value else cache.get id := by
  unfold Routed.cacheWrite
  by_cases hid : w.id = id
  · cases w.value <;> simp [hid]
  · cases w.value <;> simp [hid]

theorem ascending_cacheWrite {cache : Records} (h : Ascending Prod.fst cache) :
    Ascending Prod.fst (w.cacheWrite cache) := by
  unfold Routed.cacheWrite
  cases w.value with
  | some bytes => exact Table.ascending_put h w.id bytes
  | none => exact ascending_drop h w.id

theorem mem_deadWrite (dead : Finset Id) :
    id ∈ w.deadWrite dead ↔ if w.id = id then w.value = none else id ∈ dead := by
  unfold Routed.deadWrite
  by_cases hid : w.id = id
  · subst hid
    cases w.value <;> simp
  · cases w.value <;> simp [hid, Ne.symm hid]

end Writes

namespace State

section Slots

variable (s : State) {h hash : Nat} {id : Id}

theorem field_update {β : Type} (field : Slot → β) (slots : Nat → Slot) (slot : Slot) :
    field (Function.update slots h slot hash) = if hash = h then field slot else field (slots hash) := by
  rw [Function.update_apply]
  exact apply_ite field _ _ _

theorem field_update_kept {β : Type} (field : Slot → β) (slots : Nat → Slot) {slot : Slot}
    (hkept : field slot = field (slots h)) : field (Function.update slots h slot hash) = field (slots hash) := by
  rw [field_update field, hkept]
  by_cases hh : hash = h
  · rw [if_pos hh, hh]
  · rw [if_neg hh]

theorem cache_setCache (cache : Records) :
    ((s.setCache h cache).slots hash).cache = if hash = h then cache else (s.slots hash).cache :=
  field_update Slot.cache s.slots _

@[simp] theorem dead_setCache (cache : Records) : ((s.setCache h cache).slots hash).dead = (s.slots hash).dead :=
  field_update_kept Slot.dead s.slots rfl

@[simp] theorem pages_setCache (cache : Records) : ((s.setCache h cache).slots hash).pages = (s.slots hash).pages :=
  field_update_kept Slot.pages s.slots rfl

theorem dead_setDead (dead : Finset Id) :
    ((s.setDead h dead).slots hash).dead = if hash = h then dead else (s.slots hash).dead :=
  field_update Slot.dead s.slots _

@[simp] theorem cache_setDead (dead : Finset Id) : ((s.setDead h dead).slots hash).cache = (s.slots hash).cache :=
  field_update_kept Slot.cache s.slots rfl

@[simp] theorem pages_setDead (dead : Finset Id) : ((s.setDead h dead).slots hash).pages = (s.slots hash).pages :=
  field_update_kept Slot.pages s.slots rfl

theorem pages_setPages (pages : Id → Option Bytes) :
    ((s.setPages h pages).slots hash).pages = if hash = h then pages else (s.slots hash).pages :=
  field_update Slot.pages s.slots _

@[simp] theorem cache_setPages (pages : Id → Option Bytes) :
    ((s.setPages h pages).slots hash).cache = (s.slots hash).cache :=
  field_update_kept Slot.cache s.slots rfl

@[simp] theorem dead_setPages (pages : Id → Option Bytes) :
    ((s.setPages h pages).slots hash).dead = (s.slots hash).dead :=
  field_update_kept Slot.dead s.slots rfl

@[simp] theorem last_setDead (dead : Finset Id) : (s.setDead h dead).last = s.last := rfl

@[simp] theorem last_setPages (pages : Id → Option Bytes) : (s.setPages h pages).last = s.last := rfl

end Slots

variable (s : State) (hash : Nat) (id : Id)

def cached : Option Bytes := (s.slots hash).cache.get id

-- Written, and not in a round or in a page since.
def Dirty : Prop := Queued s.pending hash id ∨ ∃ c, s.commit = some c ∧ (hash, id) ∈ c.begun

def Taken : Prop := ∃ round, s.round = some round ∧ Queued round.taken hash id

def Unplanned : Prop := ∃ round, s.round = some round ∧ Queued round.todo hash id

def draft : Option Draft := s.round.bind fun round => round.draft hash

def next : Option Bytes :=
  match s.draft hash with
  | some d => d.contents id
  | none => (s.slots hash).pages id

-- In the cache, and not yet in the tombstones.
def Torn : Prop := ∃ c w rest, s.commit = some c ∧ c.half = true ∧ c.todo = w :: rest ∧ w.hash = hash ∧ w.id = id

def Gone : Prop := ∃ d, s.draft hash = some d ∧ id ∈ d.gone

end State

structure KeySound (s : State) (hash : Nat) (id : Id) : Prop where
  cached : s.cached hash id = none ∨ s.cached hash id = s.last hash id
  kept : s.Dirty hash id ∨ s.Taken hash id → s.cached hash id = s.last hash id
  planned : ¬s.Dirty hash id → ¬s.Unplanned hash id → s.next hash id = s.last hash id
  settled : ¬s.Dirty hash id → ¬s.Taken hash id → (s.slots hash).pages id = s.last hash id
  dead : ¬s.Torn hash id → id ∈ (s.slots hash).dead → s.last hash id = none
  hidden : ¬s.Torn hash id → s.last hash id = none →
    id ∈ (s.slots hash).dead ∨ (s.slots hash).pages id = none ∨ s.Gone hash id
  drafted : ¬s.Torn hash id → s.last hash id = none → ∀ d, s.draft hash = some d →
    id ∈ (s.slots hash).dead ∨ d.contents id = none

def ReaderSound (s : State) (r : Reader) : Prop :=
  match r.look with
  | .begun => s.touched r.hash r.id = false
  | .missed => s.touched r.hash r.id = false ∧ s.cached r.hash r.id = none
  | .alive => s.touched r.hash r.id = false ∧ s.cached r.hash r.id = none ∧ r.id ∉ (s.slots r.hash).dead
  | .done found expected => found = expected

-- What is to be planned is of the round, and nothing is cleared before all is planned.
structure RoundSound (round : Round) : Prop where
  todo : ∀ hash id, Queued round.todo hash id → Queued round.taken hash id
  slots : ∀ t ∈ round.todo, t.1 ∈ round.taken.map Prod.fst
  drafts : ∀ hash d, round.draft hash = some d → hash ∈ round.taken.map Prod.fst
  publishing : round.publishing = true → round.todo = []
  planning : round.publishing = false → ∀ hash d, round.draft hash = some d → d.gone = []

structure Sound (s : State) : Prop where
  keys : ∀ hash id, KeySound s hash id
  sorted : ∀ hash, Ascending Prod.fst (s.slots hash).cache
  round : ∀ round, s.round = some round → RoundSound round
  half : ∀ c w rest, s.commit = some c → c.half = true → c.todo = w :: rest → s.last w.hash w.id = w.value
  within : ∀ c, s.commit = some c → ∀ w ∈ c.todo, w ∈ c.batch
  readers : ∀ i r, s.readers i = some r → r.overlapped = false → ReaderSound s r

section Steps

variable {s s' : State}

theorem Sound.withReader (h : Sound s) (r : Reader) (hr : r.overlapped = false → ReaderSound s r) (reader : Nat) :
    Sound { s with readers := Function.update s.readers reader (some r) } := by
  refine ⟨fun hash id => ?_, h.sorted, h.round, h.half, h.within, fun i r' hr' hover => ?_⟩
  · obtain ⟨h₁, h₂, h₃, h₄, h₅, h₆, h₇⟩ := h.keys hash id
    exact ⟨h₁, h₂, h₃, h₄, h₅, h₆, h₇⟩
  · have hr' : Function.update s.readers reader (some r) i = some r' := hr'
    by_cases hi : i = reader
    · subst hi
      rw [Function.update_self] at hr'
      cases hr'
      exact hr hover
    · rw [Function.update_of_ne hi] at hr'
      exact h.readers i r' hr' hover

theorem Sound.read (h : Sound s) {reader hash : Nat} {id : Id} (hs : s.read reader hash id = some s') : Sound s' := by
  unfold State.read at hs
  split at hs
  · cases hs
  · cases hs
    exact h.withReader ⟨hash, id, .begun, s.touched hash id⟩ (fun hover => hover) reader

theorem Sound.not_torn (h : Sound s) {hash : Nat} {id : Id} (hfree : s.touched hash id = false) :
    ¬s.Torn hash id := by
  rintro ⟨c, w, rest, hc, -, htodo, rfl, rfl⟩
  have hmem : w ∈ c.batch := h.within c hc w (htodo ▸ List.mem_cons_self)
  have htouch : c.touches w.hash w.id = true := List.any_eq_true.mpr ⟨w, hmem, by simp⟩
  rw [State.touched, hc, Option.any_some, htouch] at hfree
  cases hfree

theorem Sound.lookOn (h : Sound s) {r : Reader} (hr : ReaderSound s r)
    (hgone : r.look = .alive → ¬s.Gone r.hash r.id) {look : Look} (hlook : s.lookOn r.hash r.id r.look = some look) :
    ReaderSound s { r with look } := by
  obtain ⟨hash, id, so, overlapped⟩ := r
  have hkey := h.keys hash id
  cases so with
  | begun =>
    have hfree : s.touched hash id = false := hr
    simp only [State.lookOn] at hlook
    split at hlook
    · rename_i bytes hget
      cases hlook
      rcases hkey.cached with hnone | hlast
      · rw [State.cached, hget] at hnone
        cases hnone
      · exact hget.symm.trans hlast
    · rename_i hget
      cases hlook
      exact ⟨hfree, hget⟩
  | missed =>
    obtain ⟨hfree, hmiss⟩ : s.touched hash id = false ∧ s.cached hash id = none := hr
    simp only [State.lookOn] at hlook
    split at hlook
    · rename_i hdead
      cases hlook
      exact (hkey.dead (h.not_torn hfree) hdead).symm
    · rename_i hdead
      cases hlook
      exact ⟨hfree, hmiss, hdead⟩
  | alive =>
    obtain ⟨hfree, hmiss, hdead⟩ : s.touched hash id = false ∧ s.cached hash id = none ∧
      id ∉ (s.slots hash).dead := hr
    cases hlook
    change (s.slots hash).pages id = s.last hash id
    cases hlast : s.last hash id with
    | none =>
      rcases hkey.hidden (h.not_torn hfree) hlast with hin | hpages | hg
      · exact absurd hin hdead
      · exact hpages
      · exact absurd hg (hgone rfl)
    | some bytes =>
      -- What is in no cache has been settled.
      have hclean : ¬(s.Dirty hash id ∨ s.Taken hash id) := by
        intro hkept
        have hcached := hkey.kept hkept
        rw [hmiss, hlast] at hcached
        cases hcached
      rw [hkey.settled (fun hd => hclean (.inl hd)) fun ht => hclean (.inr ht), hlast]
  | done found expected => cases hlook

theorem Sound.look (h : Sound s) {reader : Nat}
    (hgone : ∀ r, s.readers reader = some r → r.look = .alive → ¬s.Gone r.hash r.id)
    (hs : s.look reader = some s') : Sound s' := by
  unfold State.look at hs
  obtain ⟨r, hr, hs⟩ := Option.bind_eq_some_iff.mp hs
  obtain ⟨look, hlook, hs⟩ := Option.bind_eq_some_iff.mp hs
  cases hs
  exact h.withReader { r with look } (fun hover => h.lookOn (h.readers reader r hr hover) (hgone r hr) hlook) reader

structure SameKey (s s' : State) (hash : Nat) (id : Id) : Prop where
  cached : s'.cached hash id = s.cached hash id
  last : s'.last hash id = s.last hash id
  pages : (s'.slots hash).pages id = (s.slots hash).pages id
  dead : id ∈ (s'.slots hash).dead ↔ id ∈ (s.slots hash).dead
  dirty : s'.Dirty hash id ↔ s.Dirty hash id
  taken : s'.Taken hash id ↔ s.Taken hash id
  unplanned : s'.Unplanned hash id ↔ s.Unplanned hash id
  draft : s'.draft hash = s.draft hash
  torn : s.Torn hash id → s'.Torn hash id

theorem KeySound.same {hash : Nat} {id : Id} (h : KeySound s hash id) (hsame : SameKey s s' hash id) :
    KeySound s' hash id := by
  obtain ⟨hcached, hlast, hpages, hdead, hdirty, htaken, hunplanned, hdraft, htorn⟩ := hsame
  have hnext : s'.next hash id = s.next hash id := by rw [State.next, State.next, hdraft, hpages]
  have hgone : s'.Gone hash id ↔ s.Gone hash id := by rw [State.Gone, State.Gone, hdraft]
  refine ⟨?_, ?_, ?_, ?_, fun hnot => ?_, fun hnot => ?_, fun hnot => ?_⟩
  · rw [hcached, hlast]
    exact h.cached
  · rw [hcached, hlast, hdirty, htaken]
    exact h.kept
  · rw [hdirty, hunplanned, hnext, hlast]
    exact h.planned
  · rw [hdirty, htaken, hpages, hlast]
    exact h.settled
  · rw [hdead, hlast]
    exact h.dead fun ht => hnot (htorn ht)
  · rw [hdead, hlast, hpages, hgone]
    exact h.hidden fun ht => hnot (htorn ht)
  · rw [hdead, hlast, hdraft]
    exact h.drafted fun ht => hnot (htorn ht)

section Applies

theorem ReaderSound.keep {r : Reader} (hr : ReaderSound s r)
    (hfree : s.touched r.hash r.id = false → s'.touched r.hash r.id = false)
    (hcache : s.touched r.hash r.id = false → s.cached r.hash r.id = none → s'.cached r.hash r.id = none)
    (hdead : s.touched r.hash r.id = false → r.id ∉ (s.slots r.hash).dead → r.id ∉ (s'.slots r.hash).dead) :
    ReaderSound s' r := by
  unfold ReaderSound at hr ⊢
  split at hr
  · exact hfree hr
  · exact ⟨hfree hr.1, hcache hr.1 hr.2⟩
  · exact ⟨hfree hr.1, hcache hr.1 hr.2.1, hdead hr.1 hr.2.2⟩
  · exact hr

theorem Sound.apply (h : Sound s) {batch : List (Write Bytes)} (hs : s.apply batch = some s') : Sound s' := by
  unfold State.apply at hs
  split at hs
  · cases hs
  · rename_i hnone
    cases hs
    refine ⟨fun hash id => ?_, h.sorted, h.round, fun c w rest hc hhalf => ?_,
      fun c hc w hw => ?_, fun i r hr hover => ?_⟩
    · have htorn : ¬s.Torn hash id := by
        rintro ⟨c, -, -, hc, -⟩
        rw [hnone] at hc
        cases hc
      have hdirty : s.Dirty hash id ↔ Queued s.pending hash id := by
        refine or_iff_left ?_
        rintro ⟨c, hc, -⟩
        rw [hnone] at hc
        cases hc
      have hkey := h.keys hash id
      refine ⟨hkey.cached, fun hkept => hkey.kept ?_, fun hnot => hkey.planned fun hd => hnot (.inl (hdirty.mp hd)),
        fun hnot => hkey.settled fun hd => hnot (.inl (hdirty.mp hd)), fun _ => hkey.dead htorn,
        fun _ => hkey.hidden htorn, fun _ => hkey.drafted htorn⟩
      rcases hkept with (hqueued | ⟨c, hc, hbegun⟩) | htaken
      · exact .inl (hdirty.mpr hqueued)
      · cases hc
        cases hbegun
      · exact .inr htaken
    · cases hc
      cases hhalf
    · cases hc
      exact hw
    · obtain ⟨r₀, hr₀, rfl⟩ := Option.map_eq_some_iff.mp hr
      obtain ⟨hover₀, hfree⟩ := Bool.or_eq_false_iff.mp hover
      have hsound : ReaderSound s r₀ := h.readers i r₀ hr₀ hover₀
      exact ReaderSound.keep (r := r₀) hsound (fun _ => hfree) (fun _ => id) fun _ => id

theorem not_own_of_free {c : Commit} (hc : s.commit = some c) {w : Routed} (hmem : w ∈ c.batch) {hash : Nat} {id : Id}
    (hfree : s.touched hash id = false) : ¬(w.hash = hash ∧ w.id = id) := by
  intro hown
  have htouch : c.touches hash id = true := List.any_eq_true.mpr ⟨w, hmem, by simp [hown]⟩
  rw [State.touched, hc, Option.any_some, htouch] at hfree
  cases hfree

-- The write of an apply reaches the cache: its id is dirty from here on.
theorem Sound.cacheWrite (h : Sound s) (hs : s.cacheWrite = some s') : Sound s' := by
  unfold State.cacheWrite at hs
  obtain ⟨c, hc, hs⟩ := Option.bind_eq_some_iff.mp hs
  split at hs
  · rename_i w rest htodo hhalf
    have hmem : w ∈ c.batch := h.within c hc w (htodo ▸ List.mem_cons_self)
    have htorn : ∀ hash id, ¬s.Torn hash id := by
      rintro hash id ⟨c', -, -, hc', hhalf', -⟩
      rw [hc] at hc'
      cases hc'
      rw [hhalf] at hhalf'
      cases hhalf'
    cases hs
    have hcache : ∀ hash id, (s.setCache w.hash (w.cacheWrite (s.slots w.hash).cache)).cached hash id =
        if w.hash = hash ∧ w.id = id then w.value else s.cached hash id := by
      intro hash id
      rw [State.cached, State.cache_setCache]
      by_cases hh : hash = w.hash
      · subst hh
        simp [get_cacheWrite, State.cached]
      · simp [hh, Ne.symm hh, State.cached]
    have hlast : ∀ hash id, Function.update s.last w.hash (Function.update (s.last w.hash) w.id w.value) hash id =
        if w.hash = hash ∧ w.id = id then w.value else s.last hash id := by
      intro hash id
      by_cases hh : hash = w.hash
      · subst hh
        by_cases hid : id = w.id
        · subst hid
          simp
        · simp [hid, Ne.symm hid]
      · simp [hh, Ne.symm hh]
    refine ⟨fun hash id => ?_, fun hash => ?_, h.round, fun c' w' rest' hc' _ htodo' => ?_,
      fun c' hc' w' hw' => ?_, fun i r hr hover => ?_⟩
    · by_cases hown : w.hash = hash ∧ w.id = id
      · have hnow := (hcache hash id).trans ((if_pos hown).trans ((hlast hash id).trans (if_pos hown)).symm)
        have hbegun : (hash, id) ∈ c.begun ++ [(w.hash, w.id)] := by simp [hown.1, hown.2]
        refine ⟨.inr hnow, fun _ => hnow, fun hnot => absurd (.inr ⟨_, rfl, hbegun⟩) hnot,
          fun hnot => absurd (.inr ⟨_, rfl, hbegun⟩) hnot, fun hnot => ?_, fun hnot => ?_, fun hnot => ?_⟩
        all_goals exact absurd ⟨_, w, rest, rfl, rfl, htodo, hown⟩ hnot
      · refine (h.keys hash id).same ⟨(hcache hash id).trans (if_neg hown), (hlast hash id).trans (if_neg hown),
          congrFun (State.pages_setCache s _) id, by rw [← State.dead_setCache s], or_congr_right ?_, .rfl, .rfl, rfl,
          fun ht => absurd ht (htorn hash id)⟩
        constructor
        · rintro ⟨c', hc', hbegun⟩
          cases hc'
          rcases List.mem_append.mp hbegun with hold | hnew
          · exact ⟨c, hc, hold⟩
          · cases List.mem_singleton.mp hnew
            exact absurd ⟨rfl, rfl⟩ hown
        · rintro ⟨c', hc', hbegun⟩
          rw [hc] at hc'
          cases hc'
          exact ⟨_, rfl, List.mem_append_left _ hbegun⟩
    · change Ascending Prod.fst ((s.setCache w.hash (w.cacheWrite (s.slots w.hash).cache)).slots hash).cache
      rw [State.cache_setCache]
      split
      · exact ascending_cacheWrite w (h.sorted w.hash)
      · exact h.sorted hash
    · cases hc'
      rw [htodo] at htodo'
      cases htodo'
      exact (hlast _ _).trans (if_pos ⟨rfl, rfl⟩)
    · cases hc'
      exact h.within c hc w' hw'
    · refine (h.readers i r hr hover).keep (fun hfree => ?_) (fun hfree hmiss => ?_) fun _ hdead => ?_
      · rwa [State.touched, hc] at hfree
      · exact (hcache r.hash r.id).trans ((if_neg (not_own_of_free hc hmem hfree)).trans hmiss)
      · rwa [← State.dead_setCache s] at hdead
  · cases hs

theorem Sound.deadWrite (h : Sound s) (hs : s.deadWrite = some s') : Sound s' := by
  unfold State.deadWrite at hs
  obtain ⟨c, hc, hs⟩ := Option.bind_eq_some_iff.mp hs
  split at hs
  · rename_i w rest htodo hhalf
    have hmem : w ∈ c.batch := h.within c hc w (htodo ▸ List.mem_cons_self)
    have hvalue := h.half c w rest hc hhalf htodo
    cases hs
    have hdead : ∀ hash id, id ∈ ((s.setDead w.hash (w.deadWrite (s.slots w.hash).dead)).slots hash).dead ↔
        if w.hash = hash ∧ w.id = id then w.value = none else id ∈ (s.slots hash).dead := by
      intro hash id
      rw [State.dead_setDead]
      by_cases hh : hash = w.hash
      · subst hh
        simp [mem_deadWrite]
      · simp [hh, Ne.symm hh]
    have hdirty : ∀ hash id, (∃ c' : Commit, some { c with todo := rest, half := false } = some c' ∧
        (hash, id) ∈ c'.begun) ↔ ∃ c', s.commit = some c' ∧ (hash, id) ∈ c'.begun := by
      intro hash id
      simp [hc]
    have hwhole : ∀ hash id, ¬State.Torn { s.setDead w.hash (w.deadWrite (s.slots w.hash).dead) with
        commit := some { c with todo := rest, half := false } } hash id := by
      rintro hash id ⟨c', -, -, hc', hhalf', -⟩
      cases hc'
      cases hhalf'
    refine ⟨fun hash id => ?_, fun hash => ?_, h.round, fun c' w' rest' hc' hhalf' => ?_,
      fun c' hc' w' hw' => ?_, fun i r hr hover => ?_⟩
    · have hkey := h.keys hash id
      have hcached : ((s.setDead w.hash (w.deadWrite (s.slots w.hash).dead)).slots hash).cache.get id =
          s.cached hash id := by rw [State.cache_setDead, State.cached]
      have hpages : ((s.setDead w.hash (w.deadWrite (s.slots w.hash).dead)).slots hash).pages id =
          (s.slots hash).pages id := by rw [State.pages_setDead]
      by_cases hown : w.hash = hash ∧ w.id = id
      · obtain ⟨rfl, rfl⟩ := hown
        have hin : w.id ∈ ((s.setDead w.hash (w.deadWrite (s.slots w.hash).dead)).slots w.hash).dead ↔
            s.last w.hash w.id = none := (hdead w.hash w.id).trans (by rw [if_pos ⟨rfl, rfl⟩, hvalue])
        have hmine := or_congr_right (hdirty w.hash w.id) (a := Queued s.pending w.hash w.id)
        have hnext : State.next { s.setDead w.hash (w.deadWrite (s.slots w.hash).dead) with
            commit := some { c with todo := rest, half := false } } w.hash w.id = s.next w.hash w.id := by
          unfold State.next
          rw [hpages]
          rfl
        exact ⟨hkey.cached.imp hcached.trans hcached.trans,
          fun hk => hcached.trans (hkey.kept (hk.imp_left hmine.mp)),
          fun hnot hplan => hnext.trans (hkey.planned (fun hd => hnot (hmine.mpr hd)) hplan),
          fun hnot htaken => hpages.trans (hkey.settled (fun hd => hnot (hmine.mpr hd)) htaken),
          fun _ => hin.mp, fun _ hnone => .inl (hin.mpr hnone), fun _ hnone _ _ => .inl (hin.mpr hnone)⟩
      · refine hkey.same ⟨hcached, rfl, hpages, (hdead hash id).trans (by rw [if_neg hown]),
          or_congr_right (hdirty hash id), .rfl, .rfl, rfl, ?_⟩
        rintro ⟨c', w', rest', hc', -, htodo', hown'⟩
        rw [hc] at hc'
        cases hc'
        rw [htodo] at htodo'
        cases htodo'
        exact absurd hown' hown
    · change Ascending Prod.fst ((s.setDead w.hash (w.deadWrite (s.slots w.hash).dead)).slots hash).cache
      rw [State.cache_setDead]
      exact h.sorted hash
    · cases hc'
      cases hhalf'
    · cases hc'
      exact h.within c hc w' (htodo ▸ List.mem_cons_of_mem w hw')
    · refine (h.readers i r hr hover).keep (fun hfree => ?_) (fun _ hmiss => ?_) fun hfree hnot hin => ?_
      · rwa [State.touched, hc] at hfree
      · rwa [State.cached, ← State.cache_setDead s] at hmiss
      · have hin := (hdead r.hash r.id).mp hin
        rw [if_neg (not_own_of_free hc hmem hfree)] at hin
        exact hnot hin
  · cases hs

theorem Sound.queue (h : Sound s) (hs : s.queue = some s') : Sound s' := by
  unfold State.queue at hs
  obtain ⟨c, hc, hs⟩ := Option.bind_eq_some_iff.mp hs
  split at hs
  · rename_i htodo
    cases hs
    refine ⟨fun hash id => (h.keys hash id).same ⟨rfl, rfl, rfl, .rfl, ?_, .rfl, .rfl, rfl, ?_⟩, h.sorted, h.round,
      fun c' w rest hc' => ?_, fun c' hc' => ?_, fun i r hr hover => ?_⟩
    · have hqueued : ∀ touched, Queued (mergeTouched s.pending touched) hash id ↔
          Queued s.pending hash id ∨ Queued touched hash id := queued_mergeTouched s.pending
      simp only [State.Dirty, hqueued, queued_foldl_note, hc]
      simp [Queued]
    · rintro ⟨c', w, rest, hc', -, htodo', -⟩
      rw [hc] at hc'
      cases hc'
      rw [htodo] at htodo'
      cases htodo'
    · cases hc'
    · cases hc'
    · exact (h.readers i r hr hover).keep (fun _ => rfl) (fun _ => id) fun _ => id
  · cases hs

-- Nothing is dirty and nothing is in a round, so what goes is in the pages.
theorem Sound.evict (h : Sound s) {hash target : Nat} (hround : s.round = none)
    (hs : s.evict hash target = some s') : Sound s' := by
  unfold State.evict at hs
  split at hs
  · rename_i hcommit hpending
    cases hs
    have hclean : ∀ hash id, ¬s.Dirty hash id := by
      rintro hash id (⟨t, ht, -⟩ | ⟨c, hc, -⟩)
      · rw [hpending] at ht
        cases ht
      · rw [hcommit] at hc
        cases hc
    have hfree : ∀ hash id, ¬s.Taken hash id := by
      rintro hash id ⟨round, hr, -⟩
      rw [hround] at hr
      cases hr
    have hcached : ∀ hash' id,
        (s.setCache hash (evictUpTo target (s.slots hash).cache).2).cached hash' id = none ∨
          (s.setCache hash (evictUpTo target (s.slots hash).cache).2).cached hash' id = s.cached hash' id := by
      intro hash' id
      rw [State.cached, State.cache_setCache]
      split
      · rename_i hh
        subst hh
        exact get_evictUpTo (h.sorted hash') target id
      · exact .inr rfl
    refine ⟨fun hash' id => ?_, fun hash' => ?_, h.round, h.half, h.within, fun i r hr hover => ?_⟩
    · have hkey := h.keys hash' id
      have hnext : (s.setCache hash (evictUpTo target (s.slots hash).cache).2).next hash' id = s.next hash' id := by
        unfold State.next
        rw [State.pages_setCache]
        rfl
      refine ⟨?_, fun hk => ?_, fun hnot hplan => hnext.trans (hkey.planned hnot hplan), ?_, ?_, ?_, ?_⟩
      · rcases hcached hash' id with hnone | hsame
        · exact .inl hnone
        · rw [hsame]
          exact hkey.cached
      · exact absurd hk (not_or.mpr ⟨hclean hash' id, hfree hash' id⟩)
      · rw [State.pages_setCache]
        exact hkey.settled
      · rw [State.dead_setCache]
        exact hkey.dead
      · rw [State.dead_setCache, State.pages_setCache]
        exact hkey.hidden
      · rw [State.dead_setCache]
        exact hkey.drafted
    · rw [State.cache_setCache]
      split
      · exact (h.sorted hash).sublist (evictUpTo_suffix target _).sublist
      · exact h.sorted hash'
    · refine (h.readers i r hr hover).keep id (fun _ hmiss => ?_) fun _ hdead => ?_
      · exact (hcached r.hash r.id).elim id fun heq => heq.trans hmiss
      · rwa [State.dead_setCache]
  · cases hs

end Applies

section Settle

variable {round : Round} {hash : Nat} {id : Id}

theorem taken_iff (hr : s.round = some round) : s.Taken hash id ↔ Queued round.taken hash id := by
  simp [State.Taken, hr]

theorem unplanned_iff (hr : s.round = some round) : s.Unplanned hash id ↔ Queued round.todo hash id := by
  simp [State.Unplanned, hr]

theorem draft_eq (hr : s.round = some round) (hash : Nat) : s.draft hash = round.draft hash := by
  simp [State.draft, hr]

theorem not_taken (hr : s.round = none) : ¬s.Taken hash id := by
  simp [State.Taken, hr]

theorem draft_none (hr : s.round = none) (hash : Nat) : s.draft hash = none := by
  simp [State.draft, hr]

theorem Sound.take (h : Sound s) {budget : Option Nat} (hs : s.take budget = some s') : Sound s' := by
  unfold State.take at hs
  split at hs
  · cases hs
  · rename_i hround
    simp only at hs
    split at hs
    · cases hs
    · cases hs
      refine ⟨fun hash id => ?_, h.sorted, fun round hr => ?_, h.half, h.within, h.readers⟩
      · have hkey := h.keys hash id
        have hqueued : Queued s.pending hash id ↔ Queued (takeRound budget s.pending).1 hash id ∨
            Queued (takeRound budget s.pending).2 hash id := queued_takeRound budget s.pending
        -- What is neither queued nor taken now was clean before.
        have hsettled : ∀ hcommit : Prop, (s.Dirty hash id ↔ Queued s.pending hash id ∨ hcommit) →
            ¬(Queued (takeRound budget s.pending).2 hash id ∨ hcommit) →
            ¬Queued (takeRound budget s.pending).1 hash id → (s.slots hash).pages id = s.last hash id := by
          intro hcommit hdirty hnot htaken
          refine hkey.settled (fun hd => ?_) (not_taken hround)
          rw [hdirty, hqueued] at hd
          tauto
        refine ⟨hkey.cached, fun hk => hkey.kept (.inl ?_), fun hnot hplan => ?_, fun hnot htaken => ?_, hkey.dead,
          fun ht hnone => ?_, fun _ _ d hd => ?_⟩
        · rcases hk with (hq | hc) | ht
          · exact .inl (hqueued.mpr (.inr hq))
          · exact .inr hc
          · exact .inl (hqueued.mpr (.inl ((taken_iff rfl).mp ht)))
        · exact hsettled _ .rfl hnot fun ht => hplan ((unplanned_iff rfl).mpr ht)
        · exact hsettled _ .rfl hnot fun ht => htaken ((taken_iff rfl).mpr ht)
        · rcases hkey.hidden ht hnone with hin | hpages | ⟨d, hd, -⟩
          · exact .inl hin
          · exact .inr (.inl hpages)
          · rw [draft_none hround] at hd
            cases hd
        · cases hd
      · cases hr
        exact ⟨fun _ _ hq => hq, fun t ht => List.mem_map_of_mem ht, fun _ _ hd => (nomatch hd), fun hp => (nomatch hp),
          fun _ _ _ hd => (by cases hd)⟩

theorem updated_draft {drafts : Nat → Option Draft} {d d' : Draft}
    (h : Function.update drafts hash (some d') hash = some d) : d = d' := by
  rw [Function.update_self] at h
  exact (Option.some.inj h).symm

def Round.next (round : Round) (pages : Id → Option Bytes) (hash : Nat) (id : Id) : Option Bytes :=
  match round.draft hash with
  | some d => d.contents id
  | none => pages id

theorem next_eq (hr : s.round = some round) (hash : Nat) (id : Id) :
    s.next hash id = round.next (s.slots hash).pages hash id := by
  rw [State.next, draft_eq hr, Round.next]

theorem Sound.replan (h : Sound s) (hr : s.round = some round) {round' : Round} (hround' : RoundSound round')
    (htaken : round'.taken = round.taken)
    (hplanned : ∀ hash id, ¬s.Dirty hash id → ¬Queued round'.todo hash id →
      round'.next (s.slots hash).pages hash id = s.last hash id)
    (hgone : ∀ hash d, round.draft hash = some d → ∃ d', round'.draft hash = some d' ∧ d.gone ⊆ d'.gone)
    (hdrafted : ∀ hash id d, ¬s.Torn hash id → s.last hash id = none → round'.draft hash = some d →
      id ∈ (s.slots hash).dead ∨ d.contents id = none) :
    Sound { s with round := some round' } := by
  have hsame : ∀ hash id, Queued round'.taken hash id ↔ s.Taken hash id := by
    intro hash id
    rw [htaken, taken_iff hr]
  refine ⟨fun hash id => ?_, h.sorted, fun r hr' => ?_, h.half, h.within, h.readers⟩
  · have hkey := h.keys hash id
    refine ⟨hkey.cached, fun hk => hkey.kept (hk.imp_right fun ht => (hsame hash id).mp ((taken_iff rfl).mp ht)),
      fun hnot hplan => ?_, fun hnot ht => hkey.settled hnot fun h => ht ((taken_iff rfl).mpr ((hsame hash id).mpr h)),
      hkey.dead, fun ht hnone => ?_, fun ht hnone d hd => hdrafted hash id d ht hnone ((draft_eq rfl hash).symm.trans hd)⟩
    · rw [next_eq rfl]
      exact hplanned hash id hnot fun hq => hplan ((unplanned_iff rfl).mpr hq)
    · rcases hkey.hidden ht hnone with hin | hpages | ⟨d, hd, hmem⟩
      · exact .inl hin
      · exact .inr (.inl hpages)
      · rw [draft_eq hr] at hd
        obtain ⟨d', hd', hsub⟩ := hgone hash d hd
        exact .inr (.inr ⟨d', (draft_eq rfl hash).trans hd', hsub hmem⟩)
  · cases hr'
    exact hround'

theorem Sound.openSlot (h : Sound s) (hs : s.openSlot = some s') : Sound s' := by
  unfold State.openSlot at hs
  obtain ⟨round, hround, hs⟩ := Option.bind_eq_some_iff.mp hs
  split at hs
  · rename_i hash₀ ids todo hpub htodo
    split at hs
    · rename_i hdraft₀
      cases hs
      obtain ⟨htodo', hslots, hdrafts, hpublishing, hplanning⟩ := h.round round hround
      refine h.replan hround ⟨htodo', hslots, fun hash d hd => ?_, hpublishing, fun hp hash d hd => ?_⟩ rfl
        (fun hash id hnot hplan => ?_) (fun hash d hd => ?_) fun hash id d ht hnone hd => ?_
      · by_cases hh : hash = hash₀
        · subst hh
          exact hslots (hash, ids) (htodo ▸ List.mem_cons_self)
        · exact hdrafts hash d (by simpa [hh] using hd)
      · by_cases hh : hash = hash₀
        · subst hh
          rw [updated_draft hd]
        · exact hplanning hp hash d (by simpa [hh] using hd)
      · have hnext := (h.keys hash id).planned hnot fun hu => hplan ((unplanned_iff hround).mp hu)
        rw [next_eq hround, Round.next] at hnext
        by_cases hh : hash = hash₀
        · subst hh
          rw [hdraft₀] at hnext
          simpa [Round.next] using hnext
        · simpa [Round.next, hh] using hnext
      · have hh : hash ≠ hash₀ := by
          rintro rfl
          rw [hdraft₀] at hd
          cases hd
        exact ⟨d, by simpa [hh] using hd, List.Subset.refl _⟩
      · by_cases hh : hash = hash₀
        · subst hh
          rw [updated_draft hd]
          rcases (h.keys hash id).hidden ht hnone with hin | hpages | ⟨d, hd, -⟩
          · exact .inl hin
          · exact .inr hpages
          · rw [draft_eq hround, hdraft₀] at hd
            cases hd
        · exact (h.keys hash id).drafted ht hnone d ((draft_eq hround hash).trans (by simpa [hh] using hd))
    · cases hs
  · cases hs

theorem Sound.planId (h : Sound s) (hs : s.planId = some s') : Sound s' := by
  unfold State.planId at hs
  obtain ⟨round, hround, hs⟩ := Option.bind_eq_some_iff.mp hs
  split at hs
  · rename_i hash₀ id₀ ids todo hpub htodo
    obtain ⟨d₀, hd₀, hs⟩ := Option.bind_eq_some_iff.mp hs
    cases hs
    obtain ⟨htodo', hslots, hdrafts, hpublishing, hplanning⟩ := h.round round hround
    have htaken : s.Taken hash₀ id₀ := by
      refine (taken_iff hround).mpr (htodo' hash₀ id₀ ?_)
      rw [htodo]
      exact ⟨_, List.mem_cons_self, rfl, List.mem_cons_self⟩
    have hcached : (s.slots hash₀).cache.get id₀ = s.last hash₀ id₀ := (h.keys hash₀ id₀).kept (.inr htaken)
    have hqueued : ∀ hash id, Queued round.todo hash id ↔
        (hash = hash₀ ∧ id = id₀) ∨ Queued ((hash₀, ids) :: todo) hash id := by
      intro hash id
      rw [htodo, queued_cons, queued_cons, List.mem_cons]
      constructor
      · rintro (⟨rfl, rfl | hid⟩ | hq)
        · exact .inl ⟨rfl, rfl⟩
        · exact .inr (.inl ⟨rfl, hid⟩)
        · exact .inr (.inr hq)
      · rintro (⟨rfl, rfl⟩ | ⟨rfl, hid⟩ | hq)
        · exact .inl ⟨rfl, .inl rfl⟩
        · exact .inl ⟨rfl, .inr hid⟩
        · exact .inr hq
    refine h.replan hround ⟨fun hash id hq => htodo' hash id ((hqueued hash id).mpr (.inr hq)), fun t ht => ?_,
      fun hash d hd => ?_, fun hp => ?_, fun hp hash d hd => ?_⟩ rfl
      (fun hash id hnot hplan => ?_) (fun hash d hd => ?_) fun hash id d ht hnone hd => ?_
    · rcases List.mem_cons.mp ht with rfl | ht
      · exact hslots (hash₀, id₀ :: ids) (htodo ▸ List.mem_cons_self)
      · exact hslots t (htodo ▸ List.mem_cons_of_mem _ ht)
    · by_cases hh : hash = hash₀
      · subst hh
        exact hdrafts hash d₀ hd₀
      · exact hdrafts hash d (by simpa [hh] using hd)
    · rw [hpub] at hp
      cases hp
    · by_cases hh : hash = hash₀
      · subst hh
        rw [updated_draft hd]
        exact hplanning hp hash d₀ hd₀
      · exact hplanning hp hash d (by simpa [hh] using hd)
    · by_cases hown : hash = hash₀ ∧ id = id₀
      · obtain ⟨rfl, rfl⟩ := hown
        simpa [Round.next] using hcached
      · have hnext := (h.keys hash id).planned hnot fun hu =>
          ((hqueued hash id).mp ((unplanned_iff hround).mp hu)).elim hown hplan
        rw [next_eq hround, Round.next] at hnext
        by_cases hh : hash = hash₀
        · subst hh
          rw [hd₀] at hnext
          have hid : id ≠ id₀ := fun hid => hown ⟨rfl, hid⟩
          simpa [Round.next, hid] using hnext
        · simpa [Round.next, hh] using hnext
    · by_cases hh : hash = hash₀
      · subst hh
        rw [hd₀] at hd
        cases hd
        exact ⟨_, Function.update_self .., List.Subset.refl _⟩
      · exact ⟨d, by simpa [hh] using hd, List.Subset.refl _⟩
    · by_cases hh : hash = hash₀
      · subst hh
        have hdrafted := (h.keys hash id).drafted ht hnone d₀ ((draft_eq hround hash).trans hd₀)
        rw [updated_draft hd]
        by_cases hid : id = id₀
        · subst hid
          exact .inr (by simpa using hcached.trans hnone)
        · simpa [hid] using hdrafted
      · exact (h.keys hash id).drafted ht hnone d ((draft_eq hround hash).trans (by simpa [hh] using hd))
  · cases hs

theorem Sound.closeSlot (h : Sound s) (hs : s.closeSlot = some s') : Sound s' := by
  unfold State.closeSlot at hs
  obtain ⟨round, hround, hs⟩ := Option.bind_eq_some_iff.mp hs
  split at hs
  · rename_i hash₀ todo hpub htodo
    obtain ⟨d₀, hd₀, hs⟩ := Option.bind_eq_some_iff.mp hs
    cases hs
    have hqueued : ∀ hash id, Queued round.todo hash id ↔ Queued todo hash id := by
      intro hash id
      rw [htodo, queued_cons]
      simp
    obtain ⟨htodo', hslots, hdrafts, hpublishing, hplanning⟩ := h.round round hround
    refine h.replan hround ⟨fun hash id hq => htodo' hash id ((hqueued hash id).mpr hq),
      fun t ht => hslots t (htodo ▸ List.mem_cons_of_mem _ ht), hdrafts, fun hp => ?_, hplanning⟩ rfl
      (fun hash id hnot hplan => ?_) (fun hash d hd => ⟨d, hd, List.Subset.refl _⟩)
      fun hash id d ht hnone hd => (h.keys hash id).drafted ht hnone d ((draft_eq hround hash).trans hd)
    · rw [hpub] at hp
      cases hp
    · have hnext := (h.keys hash id).planned hnot fun hu => hplan ((hqueued hash id).mp ((unplanned_iff hround).mp hu))
      rwa [next_eq hround] at hnext
  · cases hs

theorem Sound.place (h : Sound s) (hs : s.place = some s') : Sound s' := by
  unfold State.place at hs
  obtain ⟨round, hround, hs⟩ := Option.bind_eq_some_iff.mp hs
  split at hs
  · rename_i hpub htodo
    cases hs
    obtain ⟨htodo', hslots, hdrafts, hpublishing, hplanning⟩ := h.round round hround
    refine h.replan hround ⟨htodo', hslots, hdrafts, fun _ => htodo, fun hp => (nomatch hp)⟩ rfl
      (fun hash id hnot hplan => ?_) (fun hash d hd => ⟨d, hd, List.Subset.refl _⟩)
      fun hash id d ht hnone hd => (h.keys hash id).drafted ht hnone d ((draft_eq hround hash).trans hd)
    have hnext := (h.keys hash id).planned hnot fun hu => hplan ((unplanned_iff hround).mp hu)
    rwa [next_eq hround] at hnext
  · cases hs

theorem Sound.fail (h : Sound s) (hs : s.fail = some s') : Sound s' := by
  unfold State.fail at hs
  obtain ⟨round, hround, hs⟩ := Option.bind_eq_some_iff.mp hs
  split at hs
  · cases hs
  · rename_i hpub
    cases hs
    have hqueued : ∀ hash id, Queued (requeue s.pending round.taken) hash id ↔
        Queued s.pending hash id ∨ s.Taken hash id := by
      intro hash id
      rw [queued_requeue, taken_iff hround]
    refine ⟨fun hash id => ?_, h.sorted, fun _ hr => (by cases hr), h.half, h.within, h.readers⟩
    have hkey := h.keys hash id
    have hsettled : ∀ commit : Prop, (s.Dirty hash id ↔ Queued s.pending hash id ∨ commit) →
        ¬(Queued (requeue s.pending round.taken) hash id ∨ commit) → (s.slots hash).pages id = s.last hash id := by
      intro commit hdirty hnot
      rw [hqueued] at hnot
      refine hkey.settled (fun hd => hnot ?_) fun ht => hnot (.inl (.inr ht))
      exact (hdirty.mp hd).imp_left .inl
    refine ⟨hkey.cached, fun hk => hkey.kept ?_, fun hnot _ => hsettled _ .rfl hnot, fun hnot _ => hsettled _ .rfl hnot,
      hkey.dead, fun ht hnone => ?_, fun _ _ _ hd => nomatch hd⟩
    · rcases hk with (hq | hc) | ⟨_, hr, _⟩
      · exact ((hqueued hash id).mp hq).imp_left .inl
      · exact .inl (.inr hc)
      · cases hr
    · rcases hkey.hidden ht hnone with hin | hpages | ⟨d, hd, hmem⟩
      · exact .inl hin
      · exact .inr (.inl hpages)
      · rw [draft_eq hround] at hd
        rw [(h.round round hround).planning (by simpa using hpub) hash d hd] at hmem
        cases hmem

theorem Sound.clearRemoved (h : Sound s)
    (hout : ∀ round hash ids rest d id cleared, s.round = some round → round.taken = (hash, ids) :: rest →
      round.draft hash = some d → d.cleared = id :: cleared → d.contents id = none)
    (hs : s.clearRemoved = some s') : Sound s' := by
  unfold State.clearRemoved at hs
  obtain ⟨round, hround, hs⟩ := Option.bind_eq_some_iff.mp hs
  split at hs
  · rename_i hash₀ ids rest hpub htaken
    obtain ⟨d₀, hd₀, hs⟩ := Option.bind_eq_some_iff.mp hs
    split at hs
    · rename_i id₀ cleared hcleared
      cases hs
      have hnone₀ := hout round hash₀ ids rest d₀ id₀ cleared hround htaken hd₀ hcleared
      have hdead : ∀ hash id, id ∈ ((s.setDead hash₀ ((s.slots hash₀).dead.erase id₀)).slots hash).dead ↔
          ¬(hash = hash₀ ∧ id = id₀) ∧ id ∈ (s.slots hash).dead := by
        intro hash id
        rw [State.dead_setDead]
        by_cases hh : hash = hash₀
        · subst hh
          simp
        · simp [hh]
      obtain ⟨htodo', hslots, hdrafts, hpublishing, hplanning⟩ := h.round round hround
      refine ⟨fun hash id => ?_, fun hash => ?_, fun r hr => ?_, h.half, h.within, fun i r hr hover => ?_⟩
      · have hkey := h.keys hash id
        have hcached : ((s.setDead hash₀ ((s.slots hash₀).dead.erase id₀)).slots hash).cache.get id =
            s.cached hash id := by rw [State.cache_setDead, State.cached]
        have hpages : ((s.setDead hash₀ ((s.slots hash₀).dead.erase id₀)).slots hash).pages id =
            (s.slots hash).pages id := by rw [State.pages_setDead]
        -- The draft of the slot changes in its tombstones only.
        have hdraft : ∀ d, Function.update round.draft hash₀ (some { d₀ with cleared, gone := id₀ :: d₀.gone }) hash =
            some d → ∃ d', round.draft hash = some d' ∧ d.contents = d'.contents := by
          intro d hd
          by_cases hh : hash = hash₀
          · subst hh
            exact ⟨d₀, hd₀, by rw [updated_draft hd]⟩
          · exact ⟨d, by simpa [hh] using hd, rfl⟩
        have hgone : s.Gone hash id ∨ (hash = hash₀ ∧ id = id₀) → ∃ d,
            Function.update round.draft hash₀ (some { d₀ with cleared, gone := id₀ :: d₀.gone }) hash = some d ∧
              id ∈ d.gone := by
          rintro (⟨d, hd, hmem⟩ | ⟨rfl, rfl⟩)
          · rw [draft_eq hround] at hd
            by_cases hh : hash = hash₀
            · subst hh
              rw [hd₀] at hd
              cases hd
              exact ⟨_, Function.update_self .., List.mem_cons_of_mem _ hmem⟩
            · exact ⟨d, by simpa [hh] using hd, hmem⟩
          · exact ⟨_, Function.update_self .., List.mem_cons_self⟩
        refine ⟨hkey.cached.imp hcached.trans hcached.trans,
          fun hk => hcached.trans (hkey.kept (hk.imp_right fun ht => ?_)), fun hnot hplan => ?_, fun hnot ht => ?_,
          fun ht hin => hkey.dead ht ((hdead hash id).mp hin).2, fun ht hnone => ?_, fun ht hnone d hd => ?_⟩
        · rw [taken_iff rfl] at ht
          exact (taken_iff hround).mpr ht
        · rw [unplanned_iff rfl] at hplan
          have hnext := hkey.planned hnot fun hu => hplan ((unplanned_iff hround).mp hu)
          rw [next_eq hround, Round.next] at hnext
          rw [next_eq rfl, Round.next]
          by_cases hh : hash = hash₀
          · subst hh
            simpa [hd₀] using hnext
          · simpa [hh] using hnext
        · rw [taken_iff rfl] at ht
          exact hpages.trans (hkey.settled hnot fun h => ht ((taken_iff hround).mp h))
        · by_cases hown : hash = hash₀ ∧ id = id₀
          · exact .inr (.inr ((hgone (.inr hown)).imp fun d hd => ⟨(draft_eq rfl hash).trans hd.1, hd.2⟩))
          · rcases hkey.hidden ht hnone with hin | hnopage | hg
            · exact .inl ((hdead hash id).mpr ⟨hown, hin⟩)
            · exact .inr (.inl (hpages.trans hnopage))
            · exact .inr (.inr ((hgone (.inl hg)).imp fun d hd => ⟨(draft_eq rfl hash).trans hd.1, hd.2⟩))
        · rw [draft_eq rfl] at hd
          obtain ⟨d', hd', hcontents⟩ := hdraft d hd
          by_cases hown : hash = hash₀ ∧ id = id₀
          · obtain ⟨rfl, rfl⟩ := hown
            rw [hd₀] at hd'
            cases hd'
            exact .inr (by rw [hcontents, hnone₀])
          · rw [hcontents]
            refine (hkey.drafted ht hnone d' ((draft_eq hround hash).trans hd')).imp_left fun hin => ?_
            exact (hdead hash id).mpr ⟨hown, hin⟩
      · change Ascending Prod.fst ((s.setDead hash₀ ((s.slots hash₀).dead.erase id₀)).slots hash).cache
        rw [State.cache_setDead]
        exact h.sorted hash
      · cases hr
        refine ⟨htodo', hslots, fun hash d hd => ?_, hpublishing, fun hp => ?_⟩
        · by_cases hh : hash = hash₀
          · subst hh
            exact hdrafts hash d₀ hd₀
          · exact hdrafts hash d (by simpa [hh] using hd)
        · rw [hpub] at hp
          cases hp
      · refine (h.readers i r hr hover).keep id (fun _ hmiss => ?_) fun _ hnot hin => ?_
        · rwa [State.cached, ← State.cache_setDead s] at hmiss
        · exact hnot ((hdead r.hash r.id).mp hin).2
    · cases hs
  · cases hs

theorem Sound.install (h : Sound s) (hs : s.install = some s') : Sound s' := by
  unfold State.install at hs
  obtain ⟨round, hround, hs⟩ := Option.bind_eq_some_iff.mp hs
  split at hs
  · rename_i hash₀ ids rest hpub htaken
    obtain ⟨d₀, hd₀, hs⟩ := Option.bind_eq_some_iff.mp hs
    split at hs
    · cases hs
      obtain ⟨htodo', hslots, hdrafts, hpublishing, hplanning⟩ := h.round round hround
      have hempty := hpublishing hpub
      have hpages : ∀ hash id, ((s.setPages hash₀ d₀.contents).slots hash).pages id =
          if hash = hash₀ then d₀.contents id else (s.slots hash).pages id := by
        intro hash id
        rw [State.pages_setPages]
        split <;> rfl
      refine ⟨fun hash id => ?_, fun hash => ?_, fun r hr => ?_, h.half, h.within, fun i r hr hover => ?_⟩
      · have hkey := h.keys hash id
        have hcached : ((s.setPages hash₀ d₀.contents).slots hash).cache.get id = s.cached hash id := by
          rw [State.cache_setPages, State.cached]
        have hdead : id ∈ ((s.setPages hash₀ d₀.contents).slots hash).dead ↔ id ∈ (s.slots hash).dead := by
          rw [State.dead_setPages]
        have hplanned : ¬s.Unplanned hash id := by
          rw [unplanned_iff hround, hempty]
          simp [Queued]
        have htaken' : s.Taken hash id ↔ (hash₀ = hash ∧ id ∈ ids) ∨ Queued rest hash id := by
          rw [taken_iff hround, htaken, queued_cons]
        refine ⟨hkey.cached.imp hcached.trans hcached.trans,
          fun hk => hcached.trans (hkey.kept (hk.imp_right fun ht => ?_)), fun hnot _ => ?_, fun hnot ht => ?_,
          fun ht hin => hkey.dead ht (hdead.mp hin), fun ht hnone => ?_, fun ht hnone d hd => ?_⟩
        · rw [taken_iff rfl] at ht
          exact htaken'.mpr (.inr ht)
        · have hnext := hkey.planned hnot hplanned
          rw [next_eq hround, Round.next] at hnext
          rw [next_eq rfl, Round.next]
          by_cases hh : hash = hash₀
          · subst hh
            rw [hd₀] at hnext
            simpa [State.pages_setPages] using hnext
          · simpa [State.pages_setPages, hh] using hnext
        · by_cases hh : hash = hash₀
          · subst hh
            have hnext := hkey.planned hnot hplanned
            rw [next_eq hround, Round.next, hd₀] at hnext
            exact (hpages hash id).trans ((if_pos rfl).trans hnext)
          · refine (hpages hash id).trans ((if_neg hh).trans (hkey.settled hnot fun h => ht ?_))
            exact (taken_iff rfl).mpr ((htaken'.mp h).resolve_left fun hown => hh hown.1.symm)
        · by_cases hh : hash = hash₀
          · subst hh
            rcases hkey.drafted ht hnone d₀ ((draft_eq hround hash).trans hd₀) with hin | hout
            · exact .inl (hdead.mpr hin)
            · exact .inr (.inl ((hpages hash id).trans ((if_pos rfl).trans hout)))
          · rcases hkey.hidden ht hnone with hin | hnopage | ⟨d, hd, hmem⟩
            · exact .inl (hdead.mpr hin)
            · exact .inr (.inl ((hpages hash id).trans ((if_neg hh).trans hnopage)))
            · rw [draft_eq hround] at hd
              exact .inr (.inr ⟨d, (draft_eq rfl hash).trans (by simpa [hh] using hd), hmem⟩)
        · rw [draft_eq rfl] at hd
          have hh : hash ≠ hash₀ := by
            rintro rfl
            simp at hd
          have hd : round.draft hash = some d := by simpa [hh] using hd
          exact (hkey.drafted ht hnone d ((draft_eq hround hash).trans hd)).imp_left hdead.mpr
      · change Ascending Prod.fst ((s.setPages hash₀ d₀.contents).slots hash).cache
        rw [State.cache_setPages]
        exact h.sorted hash
      · cases hr
        refine ⟨fun hash id hq => ?_, fun t ht => ?_, fun hash d hd => ?_, hpublishing, fun hp => ?_⟩
        · rw [hempty] at hq
          exact absurd hq (by simp [Queued])
        · rw [hempty] at ht
          cases ht
        · have hh : hash ≠ hash₀ := by
            rintro rfl
            simp at hd
          have hmem := hdrafts hash d (by simpa [hh] using hd)
          rw [htaken] at hmem
          simpa [hh] using hmem
        · rw [hpub] at hp
          cases hp
      · refine (h.readers i r hr hover).keep id (fun _ hmiss => ?_) fun _ hnot hin => ?_
        · rwa [State.cached, ← State.cache_setPages s] at hmiss
        · rw [State.dead_setPages] at hin
          exact hnot hin
    · cases hs
  · cases hs

theorem Sound.finish (h : Sound s) (hs : s.finish = some s') : Sound s' := by
  unfold State.finish at hs
  obtain ⟨round, hround, hs⟩ := Option.bind_eq_some_iff.mp hs
  split at hs
  · rename_i hpub htaken
    cases hs
    have hfree : ∀ hash id, ¬s.Taken hash id := by
      intro hash id
      rw [taken_iff hround, htaken]
      simp [Queued]
    have hnodraft : ∀ hash, s.draft hash = none := by
      intro hash
      rw [draft_eq hround]
      cases hd : round.draft hash with
      | none => rfl
      | some d =>
        have hmem := (h.round round hround).drafts hash d hd
        rw [htaken] at hmem
        cases hmem
    refine ⟨fun hash id => ?_, h.sorted, fun _ hr => (by cases hr), h.half, h.within, h.readers⟩
    have hkey := h.keys hash id
    refine ⟨hkey.cached, fun hk => hkey.kept (hk.imp_right (by rintro ⟨_, hr, _⟩; cases hr)),
      fun hnot _ => hkey.settled hnot (hfree hash id), fun hnot _ => hkey.settled hnot (hfree hash id),
      hkey.dead, fun ht hnone => ?_, fun _ _ _ hd => (by cases hd)⟩
    rcases hkey.hidden ht hnone with hin | hpages | ⟨d, hd, -⟩
    · exact .inl hin
    · exact .inr (.inl hpages)
    · rw [hnodraft] at hd
      cases hd
  · cases hs

end Settle

end Steps

end WaveDb.Storage.Interleaved
