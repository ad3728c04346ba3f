import WaveDb.Storage.Journals
import WaveDb.Storage.Commit
import WaveDb.Storage.Disk.Spec

-- The open in its stages: `data.bin`, the journals, the root, the clean-up and
-- the journal to go on with.
namespace WaveDb.Storage

open WaveDb.Lib WaveDb.Core

variable {Blk : Type} {w : World Blk Mem} {d d' : Disk Blk}

section Mend

structure JournalFile.Mends (j j' : JournalFile) : Prop where
  ts : j'.ts = j.ts
  frames : j'.frames = j.frames
  synced : j'.synced = j.synced ∨ j'.synced = j.frames.length

structure Mends (d d' : Disk Blk) : Prop where
  journals : List.Forall₂ JournalFile.Mends d.journals d'.journals
  data : d'.data = d.data
  removed : d'.removed = d.removed

theorem JournalFile.Mends.refl (j : JournalFile) : j.Mends j := ⟨rfl, rfl, .inl rfl⟩

theorem JournalFile.Mends.trans {j j' j'' : JournalFile} (h : j.Mends j') (h' : j'.Mends j'') :
    j.Mends j'' := by
  refine ⟨h'.ts.trans h.ts, h'.frames.trans h.frames, ?_⟩
  rcases h'.synced with hs | hs
  · rw [hs]
    exact h.synced
  · rw [hs, h.frames]
    exact .inr rfl

theorem Mends.refl (d : Disk Blk) : Mends d d :=
  ⟨List.forall₂_same.mpr fun j _ => .refl j, rfl, rfl⟩

theorem Mends.trans {d'' : Disk Blk} (h : Mends d d') (h' : Mends d' d'') : Mends d d'' := by
  refine ⟨?_, h'.data.trans h.data, h'.removed.trans h.removed⟩
  have hj := h.journals
  have hj' := h'.journals
  generalize d.journals = js at hj
  generalize d'.journals = js' at hj hj'
  generalize d''.journals = js'' at hj'
  induction hj generalizing js'' with
  | nil => cases hj' with | nil => exact .nil
  | cons hone _ ih =>
    cases hj' with
    | cons hone' hrest => exact .cons (hone.trans hone') (ih _ hrest)

theorem Mends.setJournal {ts : Nat} {g : JournalFile → JournalFile} (hg : ∀ j : JournalFile, j.Mends (g j)) :
    Mends d (d.setJournal ts g) := by
  refine ⟨List.forall₂_map_right_iff.mpr (List.forall₂_same.mpr fun j _ => ?_), rfl, rfl⟩
  split
  · exact hg j
  · exact .refl j

theorem mem_of_mends {js js' : List JournalFile} (h : List.Forall₂ JournalFile.Mends js js')
    {j' : JournalFile} (hj' : j' ∈ js') : ∃ j ∈ js, j.Mends j' := by
  induction h with
  | nil => cases hj'
  | cons hone _ ih =>
    rcases List.mem_cons.mp hj' with rfl | hj'
    · exact ⟨_, List.mem_cons_self, hone⟩
    · obtain ⟨j, hj, hmends⟩ := ih hj'
      exact ⟨j, List.mem_cons_of_mem _ hj, hmends⟩

theorem exists_mends {js js' : List JournalFile} (h : List.Forall₂ JournalFile.Mends js js')
    {j : JournalFile} (hj : j ∈ js) : ∃ j' ∈ js', j.Mends j' := by
  induction h with
  | nil => cases hj
  | cons hone _ ih =>
    rcases List.mem_cons.mp hj with rfl | hj
    · exact ⟨_, List.mem_cons_self, hone⟩
    · obtain ⟨j', hj', hmends⟩ := ih hj
      exact ⟨j', List.mem_cons_of_mem _ hj', hmends⟩

theorem Mends.contents (h : Mends d d') :
    (d'.journals.map fun j => (j.ts, j.frames)) = d.journals.map fun j => (j.ts, j.frames) := by
  have hj := h.journals
  generalize d.journals = js at hj
  generalize d'.journals = js' at hj
  induction hj with
  | nil => rfl
  | cons hone _ ih => rw [List.map_cons, List.map_cons, ih, hone.ts, hone.frames]

theorem Mends.firmer (h : Mends d d') : Firmer d d' := by
  refine ⟨?_, fun hs j' hj' => ?_, fun x => ?_, fun x hx => ?_⟩
  · have hcontents := congrArg (List.map Prod.fst) h.contents
    simpa [Disk.stamps, Function.comp_def] using hcontents
  · obtain ⟨j, hj, hmends⟩ := mem_of_mends h.journals hj'
    have hle := hs j hj
    rcases hmends.synced with hsync | hsync
    · rw [hsync, hmends.frames]
      exact hle
    · rw [hsync, hmends.frames]
  · simp only [Disk.mem_carried]
    constructor
    · rintro ⟨j', hj', hts, hc⟩
      obtain ⟨j, hj, hmends⟩ := mem_of_mends h.journals hj'
      exact ⟨j, hj, hmends.ts ▸ hts, hmends.frames ▸ hc⟩
    · rintro ⟨j, hj, hts, hc⟩
      obtain ⟨j', hj', hmends⟩ := exists_mends h.journals hj
      exact ⟨j', hj', hmends.ts.trans hts, hmends.frames.symm ▸ hc⟩
  · obtain ⟨j, hj, hts, hc⟩ := Disk.mem_lasting.mp hx
    obtain ⟨j', hj', hmends⟩ := exists_mends h.journals hj
    refine Disk.mem_lasting.mpr ⟨j', hj', hmends.ts.trans hts, ?_⟩
    rw [hmends.frames]
    rcases hmends.synced with hsync | hsync
    · rw [hsync]
      exact hc
    · rw [hsync, List.take_length]
      exact Disk.commitsOf_take_subset hc

end Mend

section Scan

theorem find_journal {js : List JournalFile} (hsorted : js.Pairwise fun i j => i.ts < j.ts)
    {j : JournalFile} (hj : j ∈ js) : (js.find? fun k => k.ts = j.ts) = some j := by
  induction js with
  | nil => cases hj
  | cons k js ih =>
    obtain ⟨hlt, htail⟩ := List.pairwise_cons.mp hsorted
    rw [List.find?_cons]
    rcases List.mem_cons.mp hj with rfl | hj
    · simp
    · have hne : k.ts ≠ j.ts := ne_of_lt (hlt j hj)
      simp only [decide_eq_false hne]
      exact ih htail hj

theorem meets_openJournal (hsorted : w.disk.journals.Pairwise fun i j => i.ts < j.ts)
    {j : JournalFile} (hj : j ∈ w.disk.journals) :
    Act.Meets (openJournal j.ts) w
      (fun opened w' => opened = (j.ts, j.frames) ∧ Mends w.disk w'.disk ∧ w'.mem = w.mem ∧
        w'.script <:+ w.script)
      (fun _ w' => Mends w.disk w'.disk ∧ w'.mem = w.mem ∧ ¬w.Calm) := by
  have hsame : ∀ w' : World Blk Mem, w.Same w' → Mends w.disk w'.disk ∧ w'.mem = w.mem :=
    fun w' hw' => ⟨hw'.disk ▸ .refl _, hw'.mem⟩
  refine Act.Meets.bind (meets_attempt (fun _ => ?_) fun hcalm =>
    ⟨.refl _, rfl, hcalm⟩)
  refine Act.Meets.bind (meets_attempt (fun _ => ?_) fun hcalm =>
    ⟨.refl _, rfl, fun h => hcalm (h.later World.rest_later)⟩)
  refine Act.Meets.bind (Act.Meets.read ?_)
  have hfind : (w.rest.rest.disk.journals.find? fun k => k.ts = j.ts) = some j := find_journal hsorted hj
  have hlater : w.rest.rest.script <:+ w.script := World.rest_later.trans World.rest_later
  rw [hfind]
  simp only [Option.map_some, Option.getD_some]
  cases htorn : j.torn with
  | false => exact ⟨rfl, .refl _, rfl, hlater⟩
  | true =>
    have hcut : Mends w.disk (w.disk.setJournal j.ts fun j => { j with torn := false }) :=
      .setJournal fun _ => ⟨rfl, rfl, .inl rfl⟩
    have hlater' : w.rest.rest.rest.script <:+ w.script := World.rest_later.trans hlater
    refine Act.Meets.bind (meets_attempt (fun _ => ?_) fun hcalm =>
      ⟨.refl _, rfl, fun h => hcalm (h.later hlater)⟩)
    refine Act.Meets.bind (meets_onDisk ?_)
    refine Act.Meets.bind (meets_syncFile ?_ fun hcalm =>
      ⟨hcut, rfl, fun h => hcalm (h.later hlater')⟩)
    refine Act.Meets.pure ⟨rfl, hcut.trans (.setJournal fun _ => ⟨rfl, rfl, .inr rfl⟩), rfl, ?_⟩
    exact World.rest_later.trans hlater'

theorem Mends.sorted (h : Mends d d') (hsorted : d.journals.Pairwise fun i j => i.ts < j.ts) :
    d'.journals.Pairwise fun i j => i.ts < j.ts := by
  rw [sorted_stamps, h.firmer.stamps, ← sorted_stamps]
  exact hsorted

theorem meets_openJournals (hsorted : w.disk.journals.Pairwise fun i j => i.ts < j.ts)
    {contents : List (Nat × List JournalFrame)}
    (hcontents : ∀ x ∈ contents, ∃ j ∈ w.disk.journals, x = (j.ts, j.frames)) :
    Act.Meets (Act.collect openJournal (contents.map Prod.fst)) w
      (fun opened w' => opened = contents ∧ Mends w.disk w'.disk ∧ w'.mem = w.mem ∧
        w'.script <:+ w.script)
      (fun _ w' => Mends w.disk w'.disk ∧ w'.mem = w.mem ∧ ¬w.Calm) := by
  induction contents generalizing w with
  | nil => exact ⟨rfl, .refl _, rfl, List.suffix_rfl⟩
  | cons x contents ih =>
    obtain ⟨j, hj, rfl⟩ := hcontents x List.mem_cons_self
    refine Act.Meets.bind ((meets_openJournal hsorted hj).mono (fun opened w' hw' => ?_)
      fun _ _ hw' => hw')
    obtain ⟨rfl, hmends, hmem, hlater⟩ := hw'
    have hrest : ∀ x ∈ contents, ∃ j ∈ w'.disk.journals, x = (j.ts, j.frames) := by
      intro y hy
      obtain ⟨k, hk, rfl⟩ := hcontents y (List.mem_cons_of_mem _ hy)
      obtain ⟨k', hk', hone⟩ := exists_mends hmends.journals hk
      exact ⟨k', hk', by rw [hone.ts, hone.frames]⟩
    refine Act.Meets.bind ((ih (hmends.sorted hsorted) hrest).mono (fun opened w'' hw'' => ?_)
      fun _ w'' hw'' => ⟨hmends.trans hw''.1, hw''.2.1.trans hmem,
        fun h => hw''.2.2 (h.later hlater)⟩)
    obtain ⟨rfl, hmends', hmem', hlater'⟩ := hw''
    exact ⟨rfl, hmends.trans hmends', hmem'.trans hmem, hlater'.trans hlater⟩

def Disk.contents (d : Disk Blk) : List (Nat × List JournalFrame) :=
  d.journals.map fun j => (j.ts, j.frames)

theorem fst_contents : d.contents.map Prod.fst = d.stamps := by
  simp [Disk.contents, Disk.stamps, Function.comp_def]

theorem newestCommit_contents : newestCommit d.contents = d.newest := by
  simp [newestCommit, Disk.contents, Disk.newest, List.flatMap_map]

theorem meets_scan (hsorted : w.disk.journals.Pairwise fun i j => i.ts < j.ts) :
    Act.Meets scan w (fun found w' => found = w.disk.stamps ∧ w.Same w')
      (fun _ w' => w.Same w' ∧ ¬w.Calm) := by
  refine Act.Meets.bind (meets_attempt (fun _ => ?_) fun hcalm => ⟨.rest, hcalm⟩)
  refine Act.Meets.read ⟨?_, .rest⟩
  refine (List.Pairwise.insertionSort_eq ?_)
  exact (sorted_stamps.mp hsorted).imp fun hlt => le_of_lt hlt

end Scan

section CleanUp

theorem cleanUp_of_uncovered {newest : Option CommitFrame} {contents : List (Nat × List JournalFrame)}
    (h : ∀ x ∈ contents, covered newest x.1 = false) :
    (cleanUp newest contents : Engine Blk _) w = (.ok contents, w) := by
  induction contents generalizing w with
  | nil => rfl
  | cons x contents ih =>
    have hx := h x List.mem_cons_self
    have hrest := @ih w fun y hy => h y (List.mem_cons_of_mem _ hy)
    rw [cleanUp, if_neg (by simp [hx])]
    change Act.bind (cleanUp newest contents) (fun rest => pure (x :: rest)) w = _
    rw [Act.bind, hrest]
    rfl

end CleanUp

section Data

variable [Media Blk]

structure DataFile.Formatted (f : DataFile Blk) (seed : Nat) : Prop where
  pos : 0 < f.len
  super : Media.readSuperblock (f.blocks 0) = .ok ⟨formatVersion, seed⟩

def DataFile.initial (seed : Nat) : DataFile Blk where
  blocks n := if n = 0 then Media.superblock ⟨formatVersion, seed⟩ else Media.zero
  len := reservedBlocks
  dirty _ := false
  lens := []

theorem DataFile.formatted_initial (seed : Nat) : (DataFile.initial seed : DataFile Blk).Formatted seed :=
  ⟨Nat.one_pos, Media.readSuperblock_superblock _⟩

def Disk.Unwritten (d : Disk Blk) : Prop := ∀ f ∈ d.data, f.len = 0

theorem meets_checkSuperblock {f : DataFile Blk} (hpos : 0 < f.len) :
    Act.Meets (checkSuperblock f) w (fun seed w' => f.Formatted seed ∧ w.Same w')
      (fun _ w' => w.Same w' ∧ (w.Calm → ∀ seed, ¬f.Formatted seed)) := by
  refine Act.Meets.bind (meets_attempt (fun _ => ?_) fun hcalm => ⟨.rest, fun h => absurd h hcalm⟩)
  refine Act.Meets.bind (Act.Meets.lift (fun s hread => ?_) fun e hread => ?_)
  · by_cases hversion : s.version = formatVersion
    · rw [if_pos hversion]
      exact ⟨⟨hpos, hversion ▸ hread⟩, .rest⟩
    · rw [if_neg hversion]
      refine ⟨.rest, fun _ seed hf => hversion ?_⟩
      rw [Except.ok.inj (hread.symm.trans hf.super)]
  · exact ⟨.rest, fun _ seed hf => nomatch hread.symm.trans hf.super⟩

theorem initial_eq {f : DataFile Blk} (hlen : f.len = 0) (seed : Nat) :
    ((f.grown reservedBlocks).write 0 [Media.superblock ⟨formatVersion, seed⟩]).sync = .initial seed := by
  have hgrown : f.grown reservedBlocks = f.setLen reservedBlocks := if_pos (by rw [hlen]; exact Nat.one_pos)
  rw [hgrown]
  simp only [DataFile.sync, DataFile.write, DataFile.setLen, DataFile.initial, hlen, DataFile.mk.injEq,
    and_true, Nat.zero_min, Nat.not_lt_zero, if_false, Nat.zero_le, if_true, Nat.sub_zero]
  funext n
  cases n with
  | zero => rfl
  | succ n => simp

-- Every step of it leaves a `data.bin` behind that had no bytes before.
theorem meets_format {f : DataFile Blk} {v : Verdict} (hdata : w.disk.data = some f) (hlen : f.len = 0) :
    Act.Meets (do
        ensureLen reservedBlocks
        writeAt 0 [Media.superblock ⟨formatVersion, v.seed⟩]
        syncData
        return v.seed : Engine Blk Nat) w
      (fun seed w' => w'.mem = w.mem ∧ w'.script <:+ w.script ∧
        w'.disk = { w.disk with data := some (.initial seed) })
      (fun _ w' => (∃ data, w'.disk = { w.disk with data := data }) ∧ ¬w.Calm) := by
  refine Act.Meets.bind (meets_ensureLen hdata (fun w₁ hlater₁ hmem₁ hdisk₁ => ?_)
    fun hcalm => ⟨⟨_, rfl⟩, hcalm⟩)
  have hdata₁ : w₁.disk.data = some (f.grown reservedBlocks) := by rw [hdisk₁]
  have hwrite : ∀ image : List Blk, w₁.disk.setData (fun f => f.write 0 image) =
      { w.disk with data := some ((f.grown reservedBlocks).write 0 image) } := by
    intro image
    rw [setData_some hdata₁, hdisk₁]
  refine Act.Meets.bind (Act.Meets.bind (meets_ask fun verdict hv => ?_))
  cases hfails : verdict.fails with
  | true =>
    refine ⟨⟨_, hwrite _⟩, fun hcalm => ?_⟩
    exact Bool.noConfusion ((hv (hcalm.later hlater₁)).symm.trans hfails)
  | false =>
    refine meets_onDisk (Act.Meets.bind (meets_syncData (Act.Meets.pure ?_) fun hcalm => ?_))
    · refine ⟨hmem₁, (World.rest_later.trans World.rest_later).trans hlater₁, ?_⟩
      change (w₁.disk.setData _).setData _ = _
      rw [hwrite, setData_some rfl, initial_eq hlen]
    · exact ⟨⟨_, hwrite _⟩, fun h => hcalm (h.later (World.rest_later.trans hlater₁))⟩

theorem meets_openData :
    Act.Meets openData w
      (fun seed w' => w'.mem = w.mem ∧ w'.script <:+ w.script ∧ ∃ f, f.Formatted seed ∧
        w'.disk = { w.disk with data := some f } ∧
        (w.disk.data = some f ∨ w.disk.Unwritten ∧ f = .initial seed))
      (fun _ w' => (∃ data, w'.disk = { w.disk with data := data } ∧
          (data = w.disk.data ∨ w.disk.Unwritten)) ∧
        (w.Calm → ∃ f, w.disk.data = some f ∧ 0 < f.len ∧ ∀ seed, ¬f.Formatted seed)) := by
  refine Act.Meets.bind (meets_attempt (fun _ => ?_) fun hcalm =>
    ⟨⟨_, rfl, .inl rfl⟩, fun h => absurd h hcalm⟩)
  refine Act.Meets.bind (meets_onDisk ?_)
  refine Act.Meets.bind (meets_dataFile rfl ?_)
  generalize hf : w.rest.disk.data.getD .fresh = f
  have hthere : ∀ g ∈ w.disk.data, g = f := by
    intro g hg
    rw [← hf]
    change g = w.disk.data.getD _
    rw [Option.mem_def.mp hg]
    rfl
  by_cases hlen : f.len = 0
  · have hunwritten : w.disk.Unwritten := fun g hg => hthere g hg ▸ hlen
    rw [if_pos hlen]
    refine Act.Meets.bind (meets_ask fun v _ => ?_)
    refine (meets_format (f := f) (by rw [← hf]; rfl) hlen).mono (fun seed w' hw' => ?_) fun _ w' hw' => ?_
    · obtain ⟨hmem, hlater, hdisk⟩ := hw'
      exact ⟨hmem, hlater.trans (World.rest_later.trans World.rest_later), _,
        DataFile.formatted_initial seed, hdisk, .inr ⟨hunwritten, rfl⟩⟩
    · obtain ⟨⟨data, hdisk⟩, hcalm⟩ := hw'
      exact ⟨⟨data, hdisk, .inr hunwritten⟩,
        fun h => absurd (h.later (World.rest_later.trans World.rest_later)) hcalm⟩
  · rw [if_neg hlen]
    have hdata : w.disk.data = some f := by
      cases hd : w.disk.data with
      | none =>
        refine absurd ?_ hlen
        rw [← hf]
        change (w.disk.data.getD DataFile.fresh).len = 0
        rw [hd]
        rfl
      | some g => rw [hthere g hd]
    have hsame : (w.rest.setDisk fun d => { d with data := some (d.data.getD .fresh) }) = w.rest := by
      rw [World.setDisk, hf, ← hdata]
      rfl
    rw [hsame]
    refine (meets_checkSuperblock (Nat.pos_of_ne_zero hlen)).mono (fun seed w' hw' => ?_) fun _ w' hw' => ?_
    · refine ⟨hw'.2.mem, hw'.2.later.trans World.rest_later, f, hw'.1, ?_, .inl hdata⟩
      rw [hw'.2.disk, ← hdata]
      rfl
    · refine ⟨⟨w.disk.data, hw'.1.disk, .inl rfl⟩, fun hcalm => ?_⟩
      exact ⟨f, hdata, Nat.pos_of_ne_zero hlen, hw'.2 (World.Calm.later hcalm World.rest_later)⟩

end Data

end WaveDb.Storage
