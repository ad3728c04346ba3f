import WaveDb.Storage.Checkpoint
import WaveDb.Storage.Disk.Spec

-- Planning leaves the disk alone, and of the memory it changes only the dictionaries'
-- buffers.
namespace WaveDb.Storage

open WaveDb.Lib WaveDb.Core

variable {Blk : Type} [Media Blk] {cfg : Config}

section Resampled

def Mem.Resampled (m m' : Mem) : Prop :=
  ∃ bufs : Nat → Bytes, (∀ hash, (m.slots hash).dict.buf <+: bufs hash) ∧
    m' = { m with slots := fun hash =>
      { m.slots hash with dict := { (m.slots hash).dict with buf := bufs hash } } }

theorem Mem.Resampled.refl (m : Mem) : m.Resampled m :=
  ⟨fun hash => (m.slots hash).dict.buf, fun _ => List.prefix_rfl, rfl⟩

theorem Mem.Resampled.trans {m m' m'' : Mem} (h : m.Resampled m') (h' : m'.Resampled m'') :
    m.Resampled m'' := by
  obtain ⟨bufs, hpre, rfl⟩ := h
  obtain ⟨bufs', hpre', rfl⟩ := h'
  exact ⟨bufs', fun hash => (hpre hash).trans (hpre' hash), rfl⟩

theorem Mem.Resampled.sample (m : Mem) (hash : Nat) (bytes : Bytes) :
    m.Resampled (m.setSlot hash fun slot => { slot with dict := (slot.dict.sample bytes).1 }) := by
  refine ⟨Function.update (fun h => (m.slots h).dict.buf) hash
    ((m.slots hash).dict.sample bytes).1.buf, fun h => ?_, ?_⟩
  · by_cases hh : h = hash
    · subst hh
      rw [Function.update_self, DictState.sample]
      split
      · exact List.prefix_append _ _
      · exact List.prefix_rfl
    · rw [Function.update_of_ne hh]
  · rw [Mem.setSlot]
    congr 1
    funext h
    by_cases hh : h = hash
    · subst hh
      simp only [Function.update_self]
      congr 1
      rw [DictState.sample]
      split <;> rfl
    · simp only [Function.update_of_ne hh]

end Resampled

section Plan

variable {w : World Blk Mem} {hash : Nat} {dir : Directory}

-- Planning from `w`: the disk as it was, the memory resampled.
structure Planning (w w' : World Blk Mem) : Prop where
  disk : w'.disk = w.disk
  mem : w.mem.Resampled w'.mem
  later : w'.script <:+ w.script

omit [Media Blk] in
theorem Planning.refl : Planning w w := ⟨rfl, .refl _, List.suffix_rfl⟩

omit [Media Blk] in
theorem Planning.of_same {w' : World Blk Mem} (h : w.Same w') : Planning w w' :=
  ⟨h.disk, h.mem ▸ .refl _, h.later⟩

omit [Media Blk] in
theorem Planning.trans {w' w'' : World Blk Mem} (h : Planning w w') (h' : Planning w' w'') :
    Planning w w'' :=
  ⟨h'.disk.trans h.disk, h.mem.trans h'.mem, h'.later.trans h.later⟩

variable {ok : SlotPage → World Blk Mem → Prop} {err : StorageError → World Blk Mem → Prop}

theorem meets_readRun_same {run : Run} {ok : List Blk → World Blk Mem → Prop}
    (hok : ∀ blocks w', w.Same w' → ok blocks w')
    (herr : ∀ e w', w.Same w' → err e w') : Act.Meets (readRun run) w ok err := by
  refine Act.Meets.bind (Act.Meets.read ?_)
  split
  · exact herr _ _ .refl
  · exact Act.Meets.bind (meets_attempt (fun _ => hok _ _ .rest) fun _ => herr _ _ .rest)

theorem meets_readPage_same {slot : StructStorage} {bucket : Nat}
    (hok : ∀ page w', w.Same w' → ok page w')
    (herr : ∀ e w', w.Same w' → err e w') : Act.Meets (readPage slot hash dir bucket) w ok err := by
  rw [readPage]
  split
  · refine Act.Meets.bind (meets_readRun_same (fun blocks w' hw' => ?_) herr)
    exact Act.Meets.lift (fun page _ => hok page w' hw') fun e _ => herr e w' hw'
  · exact hok _ _ .refl

theorem meets_stagedPage_same {staged : Staged} {bucket : Nat}
    (hok : ∀ page w', w.Same w' → ok page w')
    (herr : ∀ e w', w.Same w' → err e w') :
    Act.Meets (stagedPage hash dir staged bucket) w ok err := by
  rw [stagedPage]
  split
  · exact hok _ _ .refl
  · exact Act.Meets.bind (Act.Meets.read (meets_readPage_same hok herr))

end Plan

end WaveDb.Storage
