import WaveDb.Storage.Checkpoint.Plan

-- A settle plan projects the touched ids: the pages hold the old contents with these
-- brought up to date.
namespace WaveDb.Storage

open WaveDb.Lib WaveDb.Core

theorem DictState.state_grown {buf buf' state : Bytes} {len : Nat}
    (h : DictState.state buf len = some state) (hgrow : buf <+: buf') :
    DictState.state buf' len = some state := by
  unfold DictState.state at h ⊢
  split at h
  · rename_i hlen
    rw [if_pos (hlen.trans hgrow.length_le), ← h]
    obtain ⟨rest, rfl⟩ := hgrow
    rw [List.take_append_of_le_length hlen]
  · cases h

section Pages

variable {Blk : Type} [Media Blk]

theorem SlotPage.fromBytes_grown {blocks : List Blk} {buf buf' : Bytes} {page : SlotPage}
    (h : SlotPage.fromBytes blocks buf = .ok page) (hgrow : buf <+: buf') :
    SlotPage.fromBytes blocks buf' = .ok page := by
  unfold SlotPage.fromBytes at h ⊢
  obtain ⟨envelope, henvelope, h⟩ := bind_eq_ok.mp h
  obtain ⟨records, hrecords, h⟩ := bind_eq_ok.mp h
  refine bind_eq_ok.mpr ⟨envelope, henvelope, bind_eq_ok.mpr ⟨records, ?_, h⟩⟩
  cases hpayload : envelope.payload with
  | raw body =>
    rw [hpayload] at hrecords
    exact hrecords
  | zstd dictLen frame =>
    rw [hpayload] at hrecords
    simp only [SlotPage.body] at hrecords ⊢
    cases hstate : DictState.state buf dictLen with
    | none =>
      rw [hstate] at hrecords
      cases hrecords
    | some state =>
      rw [hstate] at hrecords
      rw [DictState.state_grown hstate hgrow]
      exact hrecords

theorem SlotPage.fromBytes_toBytes (page : SlotPage) (buf : Bytes) (compress : Bool)
    (hlen : (page.toBytes buf compress : Image Blk).len < 2 ^ 32) :
    SlotPage.fromBytes (page.toBytes buf compress : Image Blk).blocks buf = .ok page := by
  have hread := Media.readPage_page hlen
  refine bind_eq_ok.mpr ⟨_, hread, bind_eq_ok.mpr ⟨page.records, ?_, rfl⟩⟩
  simp only [SlotPage.payload]
  split
  · split
    · rename_i frame hframe
      have hstate : DictState.state buf buf.length = some buf := by
        rw [DictState.state, if_pos le_rfl, List.take_length]
      simp only [SlotPage.body, hstate, Media.decompress_compress hframe]
    · rfl
  · rfl

end Pages

section Shelf

variable {Blk : Type} [Media Blk] {cfg : Config} {w w' : World Blk Mem} {hash : Nat}
  {dir : Directory} {pages : Nat → SlotPage} {old : Id → Option Bytes}

structure Shelf (w : World Blk Mem) (hash : Nat) (dir : Directory) (pages : Nat → SlotPage) :
    Prop where
  inside : ∀ b, (dir.descriptor b).isAllocated = true →
    (dir.descriptor b).run.stop ≤ (w.disk.data.getD .fresh).len
  decodes : ∀ b, (dir.descriptor b).isAllocated = true →
    SlotPage.fromBytes ((w.disk.data.getD .fresh).read (dir.descriptor b).run)
      (w.mem.slots hash).dict.buf = .ok (pages b)
  empty : ∀ b, (dir.descriptor b).isAllocated = false → pages b = .new hash

theorem Shelf.planning (h : Shelf w hash dir pages) (hw : Planning w w') :
    Shelf w' hash dir pages := by
  obtain ⟨bufs, hgrow, hmem⟩ := hw.mem
  refine ⟨fun b hb => ?_, fun b hb => ?_, h.empty⟩
  · rw [hw.disk]
    exact h.inside b hb
  · rw [hw.disk, hmem]
    exact SlotPage.fromBytes_grown (h.decodes b hb) (hgrow hash)

theorem Shelf.push (h : Shelf w hash dir pages) : Shelf w hash (dir.pushBucket .empty) pages := by
  have hdesc : ∀ b, (dir.pushBucket .empty).descriptor b = dir.descriptor b := by
    intro b
    simp only [Directory.descriptor, Directory.pushBucket, List.getD_eq_getElem?_getD,
      List.getElem?_append]
    split
    · rfl
    · rename_i hb
      rw [List.getElem?_eq_none (by omega : dir.slots.length ≤ b)]
      cases hrest : b - dir.slots.length <;> simp
  exact ⟨fun b => hdesc b ▸ h.inside b, fun b => hdesc b ▸ h.decodes b,
    fun b => hdesc b ▸ h.empty b⟩

def stagedAt (staged : Staged) (pages : Nat → SlotPage) (bucket : Nat) : SlotPage :=
  (staged.get bucket).getD (pages bucket)

theorem isAllocated_new (bucket : Nat) : (Directory.new.descriptor bucket).isAllocated = false := by
  cases bucket <;> simp [Directory.descriptor, Directory.new]

theorem meets_readPage_shelf (h : Shelf w hash dir pages) (bucket : Nat) :
    Act.Meets (readPage (w.mem.slots hash) hash dir bucket) w
      (fun page w' => page = pages bucket ∧ w.Same w') (fun _ _ => ¬w.Calm) := by
  rw [readPage]
  split
  · rename_i halloc
    have hinside : ¬(w.disk.data.getD .fresh).len < (dir.descriptor bucket).run.stop :=
      Nat.not_lt.mpr (h.inside bucket halloc)
    refine Act.Meets.bind (Act.Meets.bind (Act.Meets.read ?_))
    rw [if_neg hinside]
    refine Act.Meets.bind (meets_attempt (fun _ => ?_) fun hcalm => hcalm)
    refine Act.Meets.pure (Act.Meets.lift (fun page hpage => ?_) fun e he => ?_)
    · rw [h.decodes bucket halloc] at hpage
      cases hpage
      exact ⟨rfl, .rest⟩
    · rw [h.decodes bucket halloc] at he
      cases he
  · rename_i halloc
    rw [h.empty bucket (by simpa using halloc)]
    exact Act.Meets.pure ⟨rfl, .refl⟩

theorem meets_stagedPage_shelf (h : Shelf w hash dir pages) (staged : Staged) (bucket : Nat) :
    Act.Meets (stagedPage hash dir staged bucket) w
      (fun page w' => page = stagedAt staged pages bucket ∧ w.Same w') (fun _ _ => ¬w.Calm) := by
  rw [stagedPage, stagedAt]
  split
  · rename_i page hpage
    rw [hpage]
    exact Act.Meets.pure ⟨rfl, .refl⟩
  · rename_i hnone
    rw [hnone]
    exact Act.Meets.bind (Act.Meets.read (meets_readPage_shelf h bucket))

end Shelf

section Project

variable {Blk : Type} [Media Blk] {cfg : Config} {w w' : World Blk Mem} {hash : Nat}
  {dir : Directory} {pages : Nat → SlotPage} {contents : Id → Option Bytes}
  {route : Id → Nat}

def Placed (route : Id → Nat) (len : Nat) (pages : Nat → SlotPage) (contents : Id → Option Bytes) :
    Prop :=
  ∀ b < len, ∀ id, (pages b).get id = if bucketIndex len (route id) = b then contents id else none

def projected (contents cache : Id → Option Bytes) (ids : List Id) (id : Id) : Option Bytes :=
  if id ∈ ids then cache id else contents id

omit [Media Blk] in
theorem projected_nil (contents cache : Id → Option Bytes) :
    projected contents cache [] = contents := by
  funext x
  simp [projected]

omit [Media Blk] in
theorem projected_cons (contents cache : Id → Option Bytes) (id : Id) (ids : List Id) :
    projected (Function.update contents id (cache id)) cache ids =
      projected contents cache (id :: ids) := by
  funext x
  by_cases hx : x = id
  · subst hx
    simp [projected]
  · simp [projected, hx]

omit [Media Blk] in
theorem stagedAt_put (staged : Staged) (pages : Nat → SlotPage) (bucket b : Nat) (page : SlotPage) :
    stagedAt (staged.put bucket page) pages b =
      if bucket = b then page else stagedAt staged pages b := by
  rw [stagedAt, Table.get_put]
  split <;> rfl

theorem Placed.touch {len : Nat} {staged : Staged} {page : SlotPage}
    (h : Placed route len (stagedAt staged pages) contents) (id : Id) (value : Option Bytes)
    (hpage : ∀ x, page.get x =
      if id = x then value else (stagedAt staged pages (bucketIndex len (route id))).get x) :
    Placed route len (stagedAt (staged.put (bucketIndex len (route id)) page) pages)
      (Function.update contents id value) := by
  intro b hb x
  rw [stagedAt_put]
  by_cases hbucket : bucketIndex len (route id) = b
  · rw [if_pos hbucket, hpage, hbucket, h b hb x]
    by_cases hx : id = x
    · subst hx
      simp [hbucket]
    · rw [if_neg hx, Function.update_of_ne (Ne.symm hx)]
  · rw [if_neg hbucket, h b hb x]
    by_cases hx : id = x
    · subst hx
      rw [if_neg hbucket, if_neg hbucket]
    · rw [Function.update_of_ne (Ne.symm hx)]

theorem Placed.split {len seed : Nat} {staged : Staged} (hlen : 0 < len)
    (h : Placed (cfg.hashOf seed) len (stagedAt staged pages) contents) {halves : SlotPage × SlotPage}
    (hhalves : halves = splitPage cfg hash seed (splitBit len)
      (stagedAt staged pages (nextSplitBucket len))) :
    Placed (cfg.hashOf seed) (len + 1)
      (stagedAt ((staged.put (nextSplitBucket len) halves.1).put len halves.2) pages) contents := by
  have hsource : nextSplitBucket len < len := by
    have := Nat.two_pow_pos (splitBit len)
    rw [nextSplitBucket]
    omega
  intro b hb id
  have hkeep : halves.1.get id = if cfg.hashOf seed id / 2 ^ splitBit len % 2 = 0 then
      (stagedAt staged pages (nextSplitBucket len)).get id else none := by
    rw [hhalves, splitPage]
    simpa [SlotPage.get] using Table.get_filter (stagedAt staged pages (nextSplitBucket len)).records id
      fun x => decide (cfg.hashOf seed x / 2 ^ splitBit len % 2 = 0)
  have hmoved : halves.2.get id = if cfg.hashOf seed id / 2 ^ splitBit len % 2 ≠ 0 then
      (stagedAt staged pages (nextSplitBucket len)).get id else none := by
    rw [hhalves, splitPage]
    simpa [SlotPage.get] using Table.get_filter (stagedAt staged pages (nextSplitBucket len)).records id
      fun x => decide (cfg.hashOf seed x / 2 ^ splitBit len % 2 ≠ 0)
  have hpage := h (nextSplitBucket len) hsource id
  have hlt : bucketIndex len (cfg.hashOf seed id) < len := bucketIndex_lt hlen
  rw [stagedAt_put, stagedAt_put, bucketIndex_succ hlen]
  by_cases htarget : len = b
  · -- The new bucket: the ids of the source with the bit set.
    subst htarget
    rw [if_pos rfl, hmoved, hpage]
    by_cases hbit : cfg.hashOf seed id / 2 ^ splitBit len % 2 = 1
    · by_cases hin : bucketIndex len (cfg.hashOf seed id) = nextSplitBucket len
      · simp [hbit, hin]
      · simp [hbit, hin, hlt.ne]
    · have hzero : cfg.hashOf seed id / 2 ^ splitBit len % 2 = 0 := by omega
      simp [hzero, hlt.ne]
  · rw [if_neg htarget]
    by_cases hb' : nextSplitBucket len = b
    · -- The source keeps the others.
      subst hb'
      rw [if_pos rfl, hkeep, hpage]
      by_cases hbit : cfg.hashOf seed id / 2 ^ splitBit len % 2 = 1
      · by_cases hin : bucketIndex len (cfg.hashOf seed id) = nextSplitBucket len
        · simp [hbit, hin, htarget]
        · simp [hbit, hin]
      · have hzero : cfg.hashOf seed id / 2 ^ splitBit len % 2 = 0 := by omega
        simp [hzero]
    · rw [if_neg hb', h b (by omega) id]
      by_cases hin : bucketIndex len (cfg.hashOf seed id) = nextSplitBucket len
      · have hne : bucketIndex len (cfg.hashOf seed id) ≠ b := by rw [hin]; exact hb'
        by_cases hbit : cfg.hashOf seed id / 2 ^ splitBit len % 2 = 1
        · simp [hin, hbit, hb', htarget]
        · simp [hin, hbit, hb']
      · simp [hin]

omit [Media Blk] in
theorem Planning.cache_eq (h : Planning w w') (hash : Nat) :
    (w'.mem.slots hash).cache = (w.mem.slots hash).cache := by
  obtain ⟨bufs, -, hmem⟩ := h.mem
  rw [hmem]

omit [Media Blk] in
theorem Planning.seed (h : Planning w w') : w'.mem.seed = w.mem.seed := by
  obtain ⟨bufs, -, hmem⟩ := h.mem
  rw [hmem]

omit [Media Blk] in
theorem Planning.calm (h : Planning w w') (hcalm : w.Calm) : w'.Calm := hcalm.later h.later

theorem get_upsert (page : SlotPage) (id x : Id) (bytes : Bytes) :
    (page.upsert id bytes).get x = if id = x then some bytes else page.get x := by
  simp [SlotPage.upsert, SlotPage.get]

theorem get_remove (page : SlotPage) (id x : Id) :
    (page.remove id).get x = if id = x then none else page.get x := by
  simp [SlotPage.remove, SlotPage.get]

theorem meets_draftIds_projects (ids : List Id) (draft : Draft) {contents : Id → Option Bytes}
    (hshelf : Shelf w hash dir pages)
    (hplaced : Placed (cfg.hashOf w.mem.seed) dir.len (stagedAt draft.staged pages) contents) :
    Act.Meets (draftIds cfg hash dir ids draft) w
      (fun draft' w' => Planning w w' ∧ Placed (cfg.hashOf w.mem.seed) dir.len
        (stagedAt draft'.staged pages) (projected contents (w.mem.slots hash).cache.get ids))
      (fun _ _ => ¬w.Calm) := by
  induction ids generalizing w draft contents with
  | nil =>
    rw [projected_nil]
    exact Act.Meets.pure ⟨.refl, hplaced⟩
  | cons id ids ih =>
    refine Act.Meets.bind (Act.Meets.read ?_)
    refine Act.Meets.then (meets_stagedPage_shelf hshelf draft.staged _) fun page w₁ hpage => ?_
    obtain ⟨hpage, hsame⟩ := hpage
    -- What the rest of the loop gives, from the world this round ends in.
    have hrest : ∀ (w₂ : World Blk Mem) (page' : SlotPage) (cleared : List Id) (grew : Bool),
        Planning w w₂ → (∀ x, page'.get x = if id = x then (w.mem.slots hash).cache.get id
          else page.get x) →
        Act.Meets (draftIds cfg hash dir ids ⟨draft.staged.put (dir.bucketOf
          (cfg.hashOf w.mem.seed id)) page', cleared, grew⟩) w₂
          (fun draft' w' => Planning w w' ∧ Placed (cfg.hashOf w.mem.seed) dir.len
            (stagedAt draft'.staged pages)
            (projected contents (w.mem.slots hash).cache.get (id :: ids)))
          (fun _ _ => ¬w.Calm) := by
      intro w₂ page' cleared grew hw₂ hpage'
      have hnext := hplaced.touch id ((w.mem.slots hash).cache.get id)
        (fun x => hpage ▸ hpage' x)
      refine (ih _ (hshelf.planning hw₂) (by rw [hw₂.seed]; exact hnext)).mono
        (fun draft' w' h => ?_) fun _ _ h hcalm => h (hw₂.calm hcalm)
      rw [hw₂.seed, hw₂.cache_eq, projected_cons] at h
      exact ⟨hw₂.trans h.1, h.2⟩
    cases hcache : (w.mem.slots hash).cache.get id with
    | some bytes =>
      refine Act.Meets.bind (Act.Meets.bind (Act.Meets.bind (Act.Meets.read
        (Act.Meets.bind (Act.Meets.modify (Act.Meets.pure (Act.Meets.pure ?_)))))))
      refine hrest _ _ _ _ ⟨hsame.disk, ?_, hsame.later⟩ fun x => ?_
      · rw [← hsame.mem]
        exact .sample _ _ _
      · rw [get_upsert, hcache]
    | none =>
      refine Act.Meets.bind (Act.Meets.pure ?_)
      refine hrest _ _ _ _ (.of_same hsame) fun x => ?_
      rw [get_remove, hcache]

-- A layout under way: what is staged is what is planned, every id is where the
-- grown directory routes it, and the buckets that were added are staged.
structure Laid (cfg : Config) (w : World Blk Mem) (hash start : Nat) (pages : Nat → SlotPage)
    (contents : Id → Option Bytes) (layout : Layout Blk) : Prop where
  shelf : Shelf w hash layout.dir pages
  placed : Placed (cfg.hashOf w.mem.seed) layout.dir.len (stagedAt layout.staged pages) contents
  images : ∀ b, layout.pages.get b = (layout.staged.get b).map fun page =>
    page.toBytes (w.mem.slots hash).dict.buf (w.mem.slots hash).dict.enabled
  added : ∀ b, start ≤ b → b < layout.dir.len → layout.staged.get b ≠ none

theorem Laid.same {start : Nat} {layout : Layout Blk} (h : Laid cfg w hash start pages contents layout)
    (hw : w.Same w') : Laid cfg w' hash start pages contents layout := by
  refine ⟨h.shelf.planning (.of_same hw), ?_, ?_, h.added⟩
  · rw [hw.mem]
    exact h.placed
  · rw [hw.mem]
    exact h.images

theorem Laid.splitOnce {start : Nat} {layout : Layout Blk} {page : SlotPage}
    (h : Laid cfg w hash start pages contents layout)
    (hpage : page = stagedAt layout.staged pages (nextSplitBucket layout.dir.len)) :
    Laid cfg w hash start pages contents
      (splitOnce cfg w.mem.seed hash (w.mem.slots hash).dict layout page) := by
  have hlen : (layout.dir.pushBucket .empty).len = layout.dir.len + 1 := by
    simp [Directory.len, Directory.pushBucket]
  refine ⟨h.shelf.push, ?_, fun b => ?_, fun b hstart hb => ?_⟩
  · rw [Storage.splitOnce, hlen]
    exact h.placed.split layout.dir.pos (by rw [hpage]; rfl)
  · simp only [Storage.splitOnce, Table.get_put, h.images b]
    split
    · rfl
    · split <;> rfl
  · rw [Storage.splitOnce, hlen] at hb
    simp only [Storage.splitOnce, Table.get_put]
    split
    · exact Option.some_ne_none _
    · split
      · exact Option.some_ne_none _
      · exact h.added b hstart (by omega)

theorem meets_planSplits_projects (start rounds : Nat) (layout : Layout Blk)
    (h : Laid cfg w hash start pages contents layout) :
    Act.Meets (planSplits cfg hash rounds layout) w
      (fun layout' w' => w.Same w' ∧ Laid cfg w' hash start pages contents layout' ∧
        layout'.dir.len ≤ layout.dir.len + rounds) (fun _ _ => ¬w.Calm) := by
  induction rounds generalizing w layout with
  | zero => exact Act.Meets.pure ⟨.refl, h, le_rfl⟩
  | succ rounds ih =>
    rw [planSplits]
    split
    · exact Act.Meets.pure ⟨.refl, h, Nat.le_add_right _ _⟩
    · refine Act.Meets.bind (Act.Meets.read ?_)
      refine Act.Meets.then (meets_stagedPage_shelf h.shelf _ _) fun page w₁ hpage => ?_
      obtain ⟨hpage, hsame⟩ := hpage
      have hsplit := h.splitOnce hpage
      refine (ih _ (hsplit.same hsame)).mono (fun layout' w' h' => ?_)
        fun _ _ h' hcalm => h' (hcalm.later hsame.later)
      obtain ⟨hsame', hlaid, hgrown⟩ := h'
      have hlen : (splitOnce cfg w.mem.seed hash (w.mem.slots hash).dict layout page).dir.len =
          layout.dir.len + 1 := by simp [Storage.splitOnce, Directory.len, Directory.pushBucket]
      exact ⟨hsame.trans hsame', hlaid, by omega⟩

-- What a plan holds for a type whose buckets held `pages`.
structure Projects (cfg : Config) (w w' : World Blk Mem) (hash : Nat) (pages : Nat → SlotPage)
    (contents : Id → Option Bytes) (ids : List Id) (plan : SlotPlan Blk) : Prop where
  placed : ∃ pages' : Nat → SlotPage,
    (∀ b image, plan.pages.get b = some image → image =
        (pages' b).toBytes (w'.mem.slots hash).dict.buf (w'.mem.slots hash).dict.enabled ∧
      (image.len < 2 ^ 32 →
        SlotPage.fromBytes image.blocks (w'.mem.slots hash).dict.buf = .ok (pages' b))) ∧
    (∀ b, plan.pages.get b = none → pages' b = pages b) ∧
    Placed (cfg.hashOf w.mem.seed) plan.dir.len pages'
      (projected contents (w.mem.slots hash).cache.get ids)
  added : ∀ b, ((w.mem.slots hash).dir.getD .new).len ≤ b → b < plan.dir.len →
    plan.pages.get b ≠ none
  splits : plan.dir.len ≤ ((w.mem.slots hash).dir.getD .new).len + 64

theorem meets_planSlot_projects (ids : List Id) (hshelf : Shelf w hash ((w.mem.slots hash).dir.getD .new) pages)
    (hplaced : Placed (cfg.hashOf w.mem.seed) ((w.mem.slots hash).dir.getD .new).len pages contents) :
    Act.Meets (planSlot cfg hash ids) w
      (fun plan w' => Projects cfg w w' hash pages contents ids plan) (fun _ _ => ¬w.Calm) := by
  refine Act.Meets.bind (Act.Meets.read ?_)
  refine Act.Meets.then (meets_draftIds_projects ids ⟨[], [], false⟩ hshelf hplaced)
    fun draft w₁ hdraft => ?_
  obtain ⟨hw₁, hdraft⟩ := hdraft
  refine Act.Meets.bind (Act.Meets.read ?_)
  have hstart : Laid cfg w₁ hash ((w.mem.slots hash).dir.getD .new).len pages
      (projected contents (w.mem.slots hash).cache.get ids)
      ⟨(w.mem.slots hash).dir.getD .new, draft.staged, draft.staged.map fun x => (x.1,
        x.2.toBytes (w₁.mem.slots hash).dict.buf (w₁.mem.slots hash).dict.enabled)⟩ :=
    ⟨hshelf.planning hw₁, by rw [hw₁.seed]; exact hdraft, fun b => Table.get_map fun page : SlotPage =>
      page.toBytes (w₁.mem.slots hash).dict.buf (w₁.mem.slots hash).dict.enabled,
      fun b hle hlt => absurd hlt (Nat.not_lt.mpr hle)⟩
  refine Act.Meets.then ((meets_planSplits_projects _ maxSplitsPerRound _ hstart).mono
    (fun _ _ h => h) fun _ _ h hcalm => h (hw₁.calm hcalm)) fun layout w₂ hlayout => ?_
  obtain ⟨hw₂, hlaid, hsplits⟩ := hlayout
  refine Act.Meets.pure ⟨⟨stagedAt layout.staged pages, fun b image himage => ?_, fun b hnone => ?_,
    ?_⟩, fun b hstart hb => ?_, hsplits⟩
  · rw [hlaid.images b] at himage
    obtain ⟨page, hpage, rfl⟩ := Option.map_eq_some_iff.mp himage
    have hat : stagedAt layout.staged pages b = page := by rw [stagedAt, hpage, Option.getD_some]
    rw [hat]
    exact ⟨rfl, fun hlen => page.fromBytes_toBytes _ _ hlen⟩
  · rw [hlaid.images b, Option.map_eq_none_iff] at hnone
    rw [stagedAt, hnone]
    rfl
  · have hplaced := hlaid.placed
    rw [hw₂.mem, hw₁.seed] at hplaced
    exact hplaced
  · rw [hlaid.images b, Ne, Option.map_eq_none_iff]
    exact hlaid.added b hstart hb

end Project

end WaveDb.Storage
