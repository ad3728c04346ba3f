import WaveDb.Storage.Checkpoint.Plan

-- What a settle round that fails leaves behind, and what a second try then does.
namespace WaveDb.Storage

open WaveDb.Lib WaveDb.Core

variable {Blk : Type} [Media Blk] {cfg : Config} {w : World Blk Mem}

section Round

def planAll (cfg : Config) (touched : Touched) : Engine Blk (List (SlotPlan Blk)) :=
  Act.collect (fun t => planSlot cfg t.1 t.2) touched

def roundOf (budget : Option Nat) (m : Mem) : Touched := (takeRound budget m.pending).1

def dequeued (budget : Option Nat) (w : World Blk Mem) : World Blk Mem :=
  { w with mem := { w.mem with pending := (takeRound budget w.mem.pending).2 } }

def requeued (round : Touched) (w : World Blk Mem) : World Blk Mem :=
  { w with mem := { w.mem with pending := requeue w.mem.pending round } }

end Round

section Unsampled

-- The type's dictionary takes nothing of the cached records: it is off or full.
def StructStorage.Unsampled (slot : StructStorage) (ids : List Id) : Prop :=
  ∀ id ∈ ids, ∀ bytes, slot.cache.get id = some bytes → (slot.dict.sample bytes).1 = slot.dict

def Unsampled (m : Mem) (touched : Touched) : Prop := ∀ t ∈ touched, (m.slots t.1).Unsampled t.2

theorem Mem.setSlot_self {m : Mem} {hash : Nat} {f : StructStorage → StructStorage}
    (h : f (m.slots hash) = m.slots hash) : m.setSlot hash f = m := by
  rw [Mem.setSlot, h, Function.update_eq_self]

variable {hash : Nat} {dir : Directory} {err : StorageError → World Blk Mem → Prop}

theorem meets_draftIds_same {ids : List Id} (draft : Draft)
    (hids : (w.mem.slots hash).Unsampled ids) :
    Act.Meets (draftIds cfg hash dir ids draft) w (fun _ w' => w.Same w') (fun _ w' => w.Same w') := by
  induction ids generalizing w draft with
  | nil => exact World.Same.refl
  | cons id ids ih =>
    refine Act.Meets.bind (Act.Meets.read ?_)
    refine Act.Meets.bind (meets_stagedPage_same (fun page w' hw' => ?_) fun e w' hw' => hw')
    have hrest : ∀ {w'' : World Blk Mem} (draft : Draft), w.Same w'' →
        Act.Meets (draftIds cfg hash dir ids draft) w'' (fun _ w' => w.Same w')
          (fun _ w' => w.Same w') := by
      intro w'' draft hw''
      have htail : (w''.mem.slots hash).Unsampled ids := by
        rw [hw''.mem]
        exact fun id' hid' => hids id' (List.mem_cons_of_mem id hid')
      exact (ih draft htail).mono (fun _ _ h => hw''.trans h) fun _ _ h => hw''.trans h
    cases hcache : (w.mem.slots hash).cache.get id with
    | none => exact Act.Meets.bind (Act.Meets.pure (hrest _ hw'))
    | some bytes =>
      refine Act.Meets.bind (Act.Meets.bind (Act.Meets.bind (Act.Meets.read
        (Act.Meets.bind (Act.Meets.modify (Act.Meets.pure (Act.Meets.pure ?_)))))))
      have hslot : (({ (w'.mem.slots hash) with
          dict := ((w'.mem.slots hash).dict.sample bytes).1 } : StructStorage)) =
          w'.mem.slots hash := by
        rw [hw'.mem, hids id List.mem_cons_self bytes hcache]
      have hmem : w'.mem.setSlot hash (fun slot =>
          { slot with dict := (slot.dict.sample bytes).1 }) = w'.mem := Mem.setSlot_self hslot
      exact hrest _ ⟨hw'.disk, hmem.trans hw'.mem, hw'.later⟩

theorem meets_planSplits_keeps (rounds : Nat) (layout : Layout Blk) :
    Act.Meets (planSplits cfg hash rounds layout) w (fun _ w' => w.Same w') (fun _ w' => w.Same w') := by
  induction rounds generalizing w layout with
  | zero => exact World.Same.refl
  | succ rounds ih =>
    rw [planSplits]
    split
    · exact World.Same.refl
    · refine Act.Meets.bind (Act.Meets.read ?_)
      refine Act.Meets.bind (meets_stagedPage_same (fun page w' hw' => ?_) fun e w' hw' => hw')
      exact (ih _).mono (fun _ _ h => hw'.trans h) fun _ _ h => hw'.trans h

theorem meets_planSlot_same {ids : List Id} (hids : (w.mem.slots hash).Unsampled ids) :
    Act.Meets (planSlot cfg hash ids) w (fun _ w' => w.Same w') (fun _ w' => w.Same w') := by
  refine Act.Meets.bind (Act.Meets.read ?_)
  refine Act.Meets.then (meets_draftIds_same ⟨[], [], false⟩ hids) fun draft w' hw' => ?_
  refine Act.Meets.bind (Act.Meets.read ?_)
  refine Act.Meets.bind ?_
  refine (meets_planSplits_keeps _ _).mono (fun layout w'' hw'' => ?_) fun e w'' hw'' => hw'.trans hw''
  exact hw'.trans hw''

theorem meets_planAll_same {touched : Touched} (h : Unsampled w.mem touched) :
    Act.Meets (planAll cfg touched) w (fun _ w' => w.Same w') (fun _ w' => w.Same w') := by
  induction touched generalizing w with
  | nil => exact World.Same.refl
  | cons t touched ih =>
    refine Act.Meets.then (meets_planSlot_same (h t List.mem_cons_self)) fun plan w' hw' => ?_
    have htail : Unsampled w'.mem touched := by
      rw [hw'.mem]
      exact fun t' ht' => h t' (List.mem_cons_of_mem t ht')
    refine Act.Meets.bind ((ih htail).mono (fun plans w'' hw'' => ?_) fun e w'' hw'' => hw'.trans hw'')
    exact hw'.trans hw''

end Unsampled

section Queue

def Queued (queue : Touched) (hash : Nat) (id : Id) : Prop := ∃ t ∈ queue, t.1 = hash ∧ id ∈ t.2

variable {hash : Nat} {id : Id}

theorem queued_cons {t : Nat × List Id} {queue : Touched} :
    Queued (t :: queue) hash id ↔ (t.1 = hash ∧ id ∈ t.2) ∨ Queued queue hash id :=
  List.exists_mem_cons_iff ..

theorem queued_append {queue queue' : Touched} :
    Queued (queue ++ queue') hash id ↔ Queued queue hash id ∨ Queued queue' hash id := by
  simp only [Queued, List.mem_append, or_and_right, exists_or]

theorem queued_reverse {queue : Touched} : Queued queue.reverse hash id ↔ Queued queue hash id := by
  simp only [Queued, List.mem_reverse]

theorem queued_takeFrom (room : Nat) (queue : Touched) :
    Queued queue hash id ↔
      Queued (takeFrom room queue).1 hash id ∨ Queued (takeFrom room queue).2 hash id := by
  induction queue generalizing room with
  | nil => simp [takeFrom, Queued]
  | cons t queue ih =>
    obtain ⟨h, ids⟩ := t
    rw [takeFrom]
    split
    · simp [Queued]
    · split
      · rw [queued_cons, queued_cons, ih (room - ids.length), or_assoc]
      · have hids : id ∈ ids ↔
            id ∈ ids.take (ids.length - room) ∨ id ∈ ids.drop (ids.length - room) := by
          rw [← List.mem_append, List.take_append_drop]
        have hnil : ¬Queued [] hash id := by simp [Queued]
        simp only [queued_cons, hids, hnil, or_false]
        tauto

theorem queued_takeRound (budget : Option Nat) (queue : Touched) :
    Queued queue hash id ↔
      Queued (takeRound budget queue).1 hash id ∨ Queued (takeRound budget queue).2 hash id := by
  cases budget with
  | none => simp [takeRound, Queued]
  | some room => rw [takeRound, queued_reverse, ← queued_takeFrom, queued_reverse]

theorem queued_requeueOne (queue : Touched) (entry : Nat × List Id) :
    Queued (requeueOne queue entry) hash id ↔
      Queued queue hash id ∨ (entry.1 = hash ∧ id ∈ entry.2) := by
  unfold requeueOne
  split
  · rename_i hany
    obtain ⟨t, ht, heq⟩ := List.any_eq_true.mp hany
    have heq : t.1 = entry.1 := of_decide_eq_true heq
    constructor
    · rintro ⟨x, hx, hhash, hid⟩
      obtain ⟨y, hy, rfl⟩ := List.mem_map.mp hx
      by_cases hsame : y.1 = entry.1
      · rw [if_pos hsame] at hhash hid
        rcases List.mem_append.mp hid with hid | hid
        · exact .inl ⟨y, hy, hhash, hid⟩
        · exact .inr ⟨hsame.symm.trans hhash, hid⟩
      · rw [if_neg hsame] at hhash hid
        exact .inl ⟨y, hy, hhash, hid⟩
    · rintro (⟨y, hy, hhash, hid⟩ | ⟨hhash, hid⟩)
      · refine ⟨_, List.mem_map.mpr ⟨y, hy, rfl⟩, ?_⟩
        split
        · exact ⟨hhash, List.mem_append_left _ hid⟩
        · exact ⟨hhash, hid⟩
      · refine ⟨_, List.mem_map.mpr ⟨t, ht, rfl⟩, ?_⟩
        rw [if_pos heq]
        exact ⟨heq.trans hhash, List.mem_append_right _ hid⟩
  · rw [queued_append, queued_cons]
    simp [Queued]

theorem queued_requeue (queue round : Touched) :
    Queued (requeue queue round) hash id ↔ Queued queue hash id ∨ Queued round hash id := by
  induction round generalizing queue with
  | nil => simp [requeue, Queued]
  | cons entry round ih =>
    have hfold : requeue queue (entry :: round) = requeue (requeueOne queue entry) round := rfl
    rw [hfold, ih, queued_requeueOne, queued_cons, or_assoc]

end Queue

section Blind

def Mem.withQueue (m : Mem) (queue : Touched) : Mem := { m with pending := queue }

def World.withQueue (w : World Blk Mem) (queue : Touched) : World Blk Mem :=
  { w with mem := w.mem.withQueue queue }

def Blind {α : Type} (p : Engine Blk α) : Prop :=
  ∀ w queue, p (w.withQueue queue) = ((p w).1, (p w).2.withQueue queue)

namespace Blind

variable {α β : Type}

omit [Media Blk] in
theorem pure (a : α) : Blind (Pure.pure a : Engine Blk α) := fun _ _ => rfl

omit [Media Blk] in
theorem fail (e : StorageError) : Blind (Act.fail e : Engine Blk α) := fun _ _ => rfl

omit [Media Blk] in
theorem lift (r : Except StorageError α) : Blind (Act.lift r : Engine Blk α) := fun _ _ => rfl

omit [Media Blk] in
theorem bind {p : Engine Blk α} {f : α → Engine Blk β} (hp : Blind p) (hf : ∀ a, Blind (f a)) :
    Blind (p >>= f) := by
  intro w queue
  change Act.bind p f (w.withQueue queue) = ((Act.bind p f w).1, (Act.bind p f w).2.withQueue queue)
  have hrun := hp w queue
  unfold Act.bind
  rw [hrun]
  rcases p w with ⟨_ | a, w'⟩
  · rfl
  · exact hf a w' queue

omit [Media Blk] in
theorem withMem {f : Mem → Engine Blk α} (hf : ∀ m, Blind (f m))
    (hm : ∀ m queue, f (m.withQueue queue) = f m) : Blind (mem >>= f) := by
  intro w queue
  change f (w.mem.withQueue queue) (w.withQueue queue) =
    ((f w.mem w).1, (f w.mem w).2.withQueue queue)
  rw [hm]
  exact hf w.mem w queue

omit [Media Blk] in
theorem ofSetMem {f : Mem → Mem}
    (h : ∀ m queue, f (m.withQueue queue) = (f m).withQueue queue) :
    Blind (setMem f : Engine Blk Unit) := by
  intro w queue
  change (Except.ok (), { w.withQueue queue with mem := f (w.mem.withQueue queue) }) = _
  rw [h]
  rfl

omit [Media Blk] in
theorem asked : Blind (ask : Engine Blk Verdict) := fun _ _ => rfl

omit [Media Blk] in
theorem attempted : Blind (attempt : Engine Blk Verdict) := by
  refine bind asked fun v => ?_
  split
  · exact fail .io
  · exact pure v

theorem ofDataFile : Blind (dataFile : Engine Blk (DataFile Blk)) := fun _ _ => rfl

omit [Media Blk] in
theorem ofDisk (f : Disk Blk → Disk Blk) : Blind (onDisk f : Engine Blk Unit) := fun _ _ => rfl

end Blind

theorem blind_readRun (run : Run) : Blind (readRun run : Engine Blk (List Blk)) := by
  refine .bind .ofDataFile fun f => ?_
  split
  · exact .fail _
  · exact .bind .attempted fun _ => .pure _

theorem blind_writeRun (run : Run) (image : List Blk) :
    Blind (writeRun run image : Engine Blk Unit) := by
  unfold writeRun
  split
  · exact .fail _
  · refine .bind (.bind .ofDataFile fun f => ?_) fun _ => .bind .asked fun v => ?_
    · split
      · exact .bind .attempted fun _ => .ofDisk _
      · exact .pure ()
    · split
      · exact .bind (.ofDisk _) fun _ => .fail _
      · exact .ofDisk _

theorem blind_readPage (slot : StructStorage) (hash : Nat) (dir : Directory) (bucket : Nat) :
    Blind (readPage slot hash dir bucket : Engine Blk SlotPage) := by
  unfold readPage
  split
  · exact .bind (blind_readRun _) fun _ => .lift _
  · exact .pure _

theorem blind_stagedPage (hash : Nat) (dir : Directory) (staged : Staged) (bucket : Nat) :
    Blind (stagedPage hash dir staged bucket : Engine Blk SlotPage) := by
  unfold stagedPage
  split
  · exact .pure _
  · exact .withMem (fun m => blind_readPage _ hash dir bucket) fun _ _ => rfl

omit [Media Blk] in
theorem blind_draftRecord (hash bucket : Nat) (page : SlotPage) (draft : Draft) (id : Id)
    (bytes : Option Bytes) : Blind (draftRecord hash bucket page draft id bytes : Engine Blk Draft) := by
  cases bytes with
  | none => exact .pure _
  | some bytes =>
    refine .bind (.withMem (fun m => .bind (.ofSetMem fun _ _ => rfl) fun _ => .pure _)
      fun _ _ => rfl) fun _ => .pure _

theorem blind_draftIds (hash : Nat) (dir : Directory) (ids : List Id) (draft : Draft) :
    Blind (draftIds cfg hash dir ids draft : Engine Blk Draft) := by
  induction ids generalizing draft with
  | nil => exact .pure _
  | cons id ids ih =>
    refine .withMem (fun m => ?_) fun _ _ => rfl
    exact .bind (blind_stagedPage _ _ _ _) fun page => .bind (blind_draftRecord _ _ _ _ _ _) ih

theorem blind_planSplits (hash rounds : Nat) (layout : Layout Blk) :
    Blind (planSplits cfg hash rounds layout) := by
  induction rounds generalizing layout with
  | zero => exact .pure _
  | succ rounds ih =>
    rw [planSplits]
    split
    · exact .pure _
    · refine .withMem (fun m => ?_) fun _ _ => rfl
      exact .bind (blind_stagedPage _ _ _ _) fun page => ih _

theorem blind_planSlot (hash : Nat) (ids : List Id) :
    Blind (planSlot cfg hash ids : Engine Blk (SlotPlan Blk)) := by
  refine .withMem (fun m => .bind (blind_draftIds _ _ _ _) fun draft => ?_) fun _ _ => rfl
  exact .withMem (fun m => .bind (blind_planSplits _ _ _) fun _ => .pure _) fun _ _ => rfl

theorem blind_planAll (touched : Touched) :
    Blind (planAll cfg touched : Engine Blk (List (SlotPlan Blk))) := by
  induction touched with
  | nil => exact .pure _
  | cons t touched ih => exact .bind (blind_planSlot _ _) fun _ => .bind ih fun _ => .pure _

omit [Media Blk] in
theorem foldl_queue {step : Mem → SlotPlan Blk → Mem} {queue : Touched}
    (h : ∀ m plan, step (m.withQueue queue) plan = (step m plan).withQueue queue)
    (plans : List (SlotPlan Blk)) (m : Mem) :
    plans.foldl step (m.withQueue queue) = (plans.foldl step m).withQueue queue := by
  induction plans generalizing m with
  | nil => rfl
  | cons plan plans ih => rw [List.foldl_cons, List.foldl_cons, h, ih]

omit [Media Blk] in
theorem finishRound_queue (freed : List Run) (plans : List (SlotPlan Blk)) (chunk : BlockDescriptor)
    (full : Bool) (dicts : Nat → Option BlockDescriptor) (m : Mem) (queue : Touched) :
    finishRound freed plans chunk full dicts (m.withQueue queue) =
      (finishRound freed plans chunk full dicts m).withQueue queue := by
  have hrepoint : ∀ m (plan : SlotPlan Blk), repoint dicts (m.withQueue queue) plan =
      (repoint dicts m plan).withQueue queue := by
    intro m plan
    unfold repoint
    cases dicts plan.structHash with
    | none => rfl
    | some desc =>
      cases hold : (m.slots plan.structHash).dict.desc.isAllocated <;>
        simp [Mem.withQueue, Mem.setSlot, hold]
  unfold finishRound publish
  rw [← foldl_queue (fun _ _ => rfl), ← foldl_queue hrepoint]
  rfl

theorem blind_writeWindow (plans : List (SlotPlan Blk)) (full : Bool) (prev : Nat)
    (reserved : Image Blk) (window : Run) :
    Blind (writeWindow cfg plans full prev reserved window) := by
  refine .withMem (fun m => ?_) fun _ _ => rfl
  simp only
  split
  · exact .fail _
  · exact .bind (blind_writeRun _ _) fun _ => .ofSetMem fun m queue =>
      finishRound_queue _ _ _ _ _ m queue

theorem blind_placeIn (plans : List (SlotPlan Blk)) (placement : Placement) :
    Blind (placeIn cfg plans placement) := by
  unfold placeIn
  split
  · exact .pure ()
  · exact .withMem (fun m => .bind (.ofSetMem fun _ _ => rfl) fun _ => blind_writeWindow _ _ _ _ _)
      fun _ _ => rfl

theorem blind_settle (touched : Touched) : Blind (settle cfg touched : Engine Blk Unit) :=
  .bind (blind_planAll touched) fun plans => blind_placeIn plans .bestFit

end Blind

section Failed

theorem settle_of_plan_error {touched : Touched} {w' : World Blk Mem} {e : StorageError}
    (hplan : planAll cfg touched w = (.error e, w')) : settle cfg touched w = (.error e, w') := by
  change Act.bind (planAll cfg touched) (fun plans => placeIn cfg plans .bestFit) w = _
  rw [Act.bind, hplan]

def twoTypes (compress : Bool) : Config :=
  ⟨[(7, compress), (8, false)], by simp, by simp, fun _ id => id.key, false⟩

def waiting (compress : Bool) (queue : Touched) (script : List Verdict) : World PlainBlock Mem where
  disk := ⟨some ⟨fun _ => .page ⟨8, .raw []⟩, 2, fun _ => false, []⟩, [], []⟩
  script := script
  mem := ⟨⟨0, 0⟩, { BlockAllocator.new with totalBlocks := 2 }, .new, none, Function.update (fun _ =>
      { StructStorage.fresh compress with cache := [(⟨3, 1, 0⟩, [1])] }) 8
      { StructStorage.fresh false with
        cache := [(⟨4, 1, 0⟩, [2])]
        dir := some ⟨[.new 1 1 0], by decide⟩ }, 0, queue, .idle⟩

def readFails : World PlainBlock Mem := waiting false [(7, [⟨3, 1, 0⟩]), (8, [⟨4, 1, 0⟩])] [{ fails := true }]

end Failed

end WaveDb.Storage
