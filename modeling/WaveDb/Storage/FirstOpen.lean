import WaveDb.Storage.Open

-- The first open of a directory, cut short anywhere: which of the disks it can
-- leave behind the next open takes.
namespace WaveDb.Storage

open WaveDb.Lib WaveDb.Core

variable {Blk : Type} [Media Blk] {cfg : Config} {w : World Blk Mem} {d d' : Disk Blk} {f f' : DataFile Blk}

section Pristine

structure DataFile.Sealed (f : DataFile Blk) : Prop where
  formatted : ∃ seed, f.Formatted seed
  clean : f.dirty 0 = false
  lens : 0 ∉ f.lens

-- No store has got to work: one empty journal at most, after `data.bin` is in order.
structure Pristine (d : Disk Blk) : Prop where
  single : d.journals.length ≤ 1
  unused : ∀ j ∈ d.journals, j.frames = []
  rooted : d.journals ≠ [] → ∃ f, d.data = some f ∧ f.Sealed

theorem Pristine.of_unjournaled (h : d.journals = []) : Pristine d := by
  refine ⟨by simp [h], fun j hj => ?_, fun hne => absurd h hne⟩
  rw [h] at hj
  cases hj

theorem DataFile.sealed_initial (seed : Nat) : (DataFile.initial seed : DataFile Blk).Sealed :=
  ⟨⟨seed, formatted_initial seed⟩, rfl, by simp [initial]⟩

theorem DataFile.Sealed.pos (h : f.Sealed) : 0 < f.len := by
  obtain ⟨seed, hseed⟩ := h.formatted
  exact hseed.pos

theorem DataFile.Sealed.truncated (h : f.Sealed) : (f.setLen reservedBlocks).Sealed := by
  obtain ⟨seed, hseed⟩ := h.formatted
  have hmin : 0 < min f.len reservedBlocks := lt_min h.pos Nat.one_pos
  refine ⟨⟨seed, Nat.one_pos, ?_⟩, ?_, ?_⟩
  · simp only [setLen, if_pos hmin]
    exact hseed.super
  · simp only [setLen, h.clean, Bool.false_or, decide_eq_false_iff_not, not_le]
    exact hmin
  · simp only [setLen, List.mem_cons, not_or]
    exact ⟨h.pos.ne, h.lens⟩

theorem DataFile.Sealed.loses (h : f.Sealed) (hloss : f.Loses f') : f'.Sealed := by
  obtain ⟨seed, hseed⟩ := h.formatted
  refine ⟨⟨seed, ?_, ?_⟩, ?_, ?_⟩
  · rcases hloss.len with hlen | hlen
    · rw [hlen]
      exact h.pos
    · exact Nat.pos_of_ne_zero fun hzero => h.lens (hzero ▸ hlen)
  · rw [hloss.kept 0 h.clean]
    exact hseed.super
  · rw [hloss.clean]
  · rw [hloss.settled]
    exact List.not_mem_nil

theorem Pristine.loses (h : Pristine d) (hloss : d.Loses d') : Pristine d' := by
  refine ⟨?_, fun j' hj' => ?_, fun hne => ?_⟩
  · rw [← hloss.journals.length_eq]
    exact h.single
  · obtain ⟨j, hj, hone⟩ := exists_of_forall₂ hloss.journals hj'
    obtain ⟨k, -, hframes⟩ := hone.kept
    rw [hframes, h.unused j hj, List.take_nil]
  · have hne' : d.journals ≠ [] := by
      intro hnil
      have hlength := hloss.journals.length_eq
      rw [hnil] at hlength
      exact hne (List.length_eq_zero_iff.mp hlength.symm)
    obtain ⟨f, hdata, hsealed⟩ := h.rooted hne'
    have hrel := hloss.data
    rw [hdata] at hrel
    cases hdata' : d'.data with
    | none =>
      rw [hdata'] at hrel
      cases hrel
    | some f' =>
      rw [hdata'] at hrel
      cases hrel with
      | some hone => exact ⟨f', rfl, hsealed.loses hone⟩

theorem Pristine.mends (h : Pristine d) (hmends : Mends d d') : Pristine d' := by
  refine ⟨?_, fun j' hj' => ?_, fun hne => ?_⟩
  · rw [← hmends.journals.length_eq]
    exact h.single
  · obtain ⟨j, hj, hone⟩ := mem_of_mends hmends.journals hj'
    rw [hone.frames]
    exact h.unused j hj
  · rw [hmends.data]
    refine h.rooted fun hnil => hne ?_
    have hlength := hmends.journals.length_eq
    rw [hnil] at hlength
    exact List.length_eq_zero_iff.mp hlength.symm

theorem Pristine.sorted (h : Pristine d) : d.journals.Pairwise fun i j => i.ts < j.ts := by
  have hsingle := h.single
  cases hjs : d.journals with
  | nil => exact .nil
  | cons j js =>
    rw [hjs, List.length_cons] at hsingle
    have hnil : js = [] := List.length_eq_zero_iff.mp (by omega)
    rw [hnil]
    exact List.pairwise_singleton _ _

theorem Pristine.newest (h : Pristine d) : d.newest = none := by
  rw [newest_eq_none, List.eq_nil_iff_forall_not_mem]
  intro x hx
  obtain ⟨j, hj, -, hc⟩ := Disk.mem_carried.mp hx
  rw [h.unused j hj] at hc
  cases hc

theorem Pristine.batches (h : Pristine d) : (d.contents.flatMap fun j => batchesOf j.2) = [] := by
  rw [List.flatMap_eq_nil_iff]
  intro x hx
  obtain ⟨j, hj, rfl⟩ := List.mem_map.mp hx
  rw [h.unused j hj]
  rfl

end Pristine

section Open

theorem meets_freshAlloc (h : Pristine w.disk) (hsealed : w.disk.journals ≠ []) :
    Act.Meets freshAlloc w (fun _ w' => Pristine w'.disk ∧ w'.disk.journals = w.disk.journals ∧ w'.mem = w.mem)
      (fun _ w' => Pristine w'.disk ∧ ¬w.Calm) := by
  refine Act.Meets.bind (meets_attempt_onDisk (Act.Meets.pure ?_) fun hcalm => ⟨h, hcalm⟩)
  refine ⟨⟨h.single, h.unused, fun _ => ?_⟩, rfl, rfl⟩
  obtain ⟨f, hdata, hf⟩ := h.rooted hsealed
  exact ⟨_, by rw [World.setDisk]; exact congrArg (Option.map _) hdata, hf.truncated⟩

theorem meets_firstJournal {ts : Nat} (hjournals : w.disk.journals = []) (hdata : w.disk.data = some f)
    (hsealed : f.Sealed) :
    Act.Meets (Journal.create ts) w
      (fun _ w' => Pristine w'.disk ∧ w'.disk.journals ≠ [] ∧ w'.mem = w.mem ∧ w'.script <:+ w.script)
      (fun _ w' => Pristine w'.disk ∧ ¬w.Calm) := by
  refine Act.Meets.bind (meets_createFile (fun _ => Act.Meets.pure ?_) fun htaken => ?_)
  · refine ⟨⟨?_, fun j hj => ?_, fun _ => ⟨f, hdata, hsealed⟩⟩, by simp [World.setDisk], rfl, World.rest_later⟩
    · change (w.disk.journals ++ _).length ≤ 1
      rw [hjournals]
      exact le_rfl
    · change j ∈ w.disk.journals ++ _ at hj
      rw [hjournals] at hj
      rw [List.mem_singleton.mp hj]
  · refine ⟨.of_unjournaled hjournals, fun hcalm => ?_⟩
    obtain ⟨j, hj, -⟩ := htaken hcalm
    rw [hjournals] at hj
    cases hj

theorem meets_restore_unused (h : Pristine w.disk) (hne : w.disk.journals ≠ []) (existed : Bool) :
    Act.Meets (restore cfg existed) w
      (fun queue w' => Pristine w'.disk ∧ queue = [] ∧ w'.mem.slots = w.mem.slots)
      (fun _ w' => Pristine w'.disk ∧ ¬w.Calm) := by
  refine Act.Meets.bind ((meets_scan h.sorted).mono (fun found w₁ h₁ => ?_) fun _ w₁ h₁ =>
    ⟨h₁.1.disk ▸ h, h₁.2⟩)
  obtain ⟨rfl, hsame⟩ := h₁
  have hstamps : w.disk.stamps.isEmpty = false := by
    rw [List.isEmpty_eq_false_iff, Disk.stamps]
    simpa using hne
  rw [hstamps, Bool.and_false, if_neg (by decide), if_neg (by decide), ← hsame.disk]
  have hpristine : Pristine w₁.disk := hsame.disk ▸ h
  have hcalm₁ : w.Calm → w₁.Calm := fun hcalm => hcalm.later hsame.later
  have hopen : Act.Meets (Act.collect openJournal w₁.disk.stamps) w₁
      (fun opened w' => opened = w₁.disk.contents ∧ Mends w₁.disk w'.disk ∧ w'.mem = w₁.mem ∧
        w'.script <:+ w₁.script)
      (fun _ w' => Mends w₁.disk w'.disk ∧ w'.mem = w₁.mem ∧ ¬w₁.Calm) := by
    rw [← fst_contents]
    refine meets_openJournals hpristine.sorted fun x hx => ?_
    obtain ⟨j, hj, rfl⟩ := List.mem_map.mp hx
    exact ⟨j, hj, rfl⟩
  refine Act.Meets.bind (hopen.mono (fun opened w₂ h₂ => ?_) fun _ w₂ h₂ =>
    ⟨hpristine.mends h₂.1, fun hcalm => h₂.2.2 (hcalm₁ hcalm)⟩)
  obtain ⟨rfl, hmends, hmem, hlater⟩ := h₂
  have hpristine₂ := hpristine.mends hmends
  have hcontents : w₁.disk.contents = w₂.disk.contents := hmends.contents.symm
  have hne₂ : w₂.disk.contents ≠ [] := by
    rw [← hcontents, hsame.disk, Disk.contents]
    simpa using hne
  rw [newestCommit_contents, hpristine.newest, hcontents]
  refine Act.Meets.bind (Act.Meets.bind ((meets_freshAlloc hpristine₂ ?_).mono (fun alloc w₃ h₃ => ?_)
    fun _ w₃ h₃ => ⟨h₃.1, fun hcalm => h₃.2 ((hcalm₁ hcalm).later hlater)⟩))
  · simpa [Disk.contents] using hne₂
  · obtain ⟨hpristine₃, -, hmem₃⟩ := h₃
    refine Act.Meets.modify ?_
    refine Act.Meets.bind ?_
    rw [Act.Meets, cleanUp_of_uncovered fun x _ => rfl]
    obtain ⟨j, hlast⟩ := Option.isSome_iff_exists.mp (List.getLast?_isSome.mpr hne₂)
    refine Act.Meets.bind ?_
    rw [currentJournal, hlast]
    refine Act.Meets.pure (Act.Meets.bind (Act.Meets.modify (Act.Meets.pure ⟨hpristine₃, hpristine₂.batches, ?_⟩)))
    change w₃.mem.slots = w.mem.slots
    rw [hmem₃, hmem, hsame.mem]

-- A directory without `data.bin` gets one, and then its first journal.
theorem meets_restore_new (hjournals : w.disk.journals = []) (hdata : w.disk.data = some f) (hsealed : f.Sealed) :
    Act.Meets (restore cfg false) w
      (fun queue w' => Pristine w'.disk ∧ queue = [] ∧ w'.mem.slots = w.mem.slots)
      (fun _ w' => Pristine w'.disk ∧ ¬w.Calm) := by
  have hpristine : Pristine w.disk := .of_unjournaled hjournals
  refine Act.Meets.bind ((meets_scan hpristine.sorted).mono (fun found w₁ h₁ => ?_) fun _ w₁ h₁ =>
    ⟨h₁.1.disk ▸ hpristine, h₁.2⟩)
  obtain ⟨rfl, hsame⟩ := h₁
  have hstamps : w.disk.stamps.isEmpty = true := by rw [Disk.stamps, hjournals]; rfl
  rw [hstamps, Bool.false_and, if_neg (by decide), if_pos rfl]
  have hcalm₁ : w.Calm → w₁.Calm := fun hcalm => hcalm.later hsame.later
  refine Act.Meets.bind (Act.Meets.bind (meets_ask fun v _ => Act.Meets.pure ?_))
  refine Act.Meets.bind ((meets_firstJournal (w := w₁.rest) (hsame.disk ▸ hjournals) (hsame.disk ▸ hdata)
    hsealed).mono (fun journal w₂ h₂ => ?_) fun _ w₂ h₂ =>
      ⟨h₂.1, fun hcalm => h₂.2 ((hcalm₁ hcalm).later World.rest_later)⟩)
  obtain ⟨hpristine₂, hne, hmem, hlater⟩ := h₂
  refine Act.Meets.bind ((meets_freshAlloc hpristine₂ hne).mono (fun alloc w₃ h₃ => ?_) fun _ w₃ h₃ =>
    ⟨h₃.1, fun hcalm => h₃.2 ((hcalm₁ hcalm).later (hlater.trans World.rest_later))⟩)
  obtain ⟨hpristine₃, -, hmem₃⟩ := h₃
  refine Act.Meets.bind (Act.Meets.modify (Act.Meets.pure ⟨hpristine₃, rfl, ?_⟩))
  change w₃.mem.slots = w.mem.slots
  rw [hmem₃, hmem, ← hsame.mem]
  rfl

theorem meets_restore_unrooted (hjournals : w.disk.journals = []) :
    Act.Meets (restore cfg true) w
      (fun queue w' => Pristine w'.disk ∧ queue = [] ∧ w'.mem.slots = w.mem.slots)
      (fun _ w' => Pristine w'.disk) := by
  have hpristine : Pristine w.disk := .of_unjournaled hjournals
  refine Act.Meets.bind ((meets_scan hpristine.sorted).mono (fun found w₁ h₁ => ?_) fun _ w₁ h₁ =>
    h₁.1.disk ▸ hpristine)
  obtain ⟨rfl, hsame⟩ := h₁
  have hstamps : w.disk.stamps.isEmpty = true := by rw [Disk.stamps, hjournals]; rfl
  rw [hstamps, Bool.and_self, if_pos rfl]
  exact Act.Meets.fail (hsame.disk ▸ hpristine)

theorem Pristine.data_kept (h : Pristine d) (hne : d.journals ≠ []) : ¬d.Unwritten := by
  obtain ⟨f, hdata, hsealed⟩ := h.rooted hne
  exact fun hunwritten => hsealed.pos.ne' (hunwritten f hdata)

variable (cfg) in
-- An open of such a directory, wherever it ends. With no operation failing, only a
-- `data.bin` without a journal stops it.
theorem meets_openStore_pristine (h : Pristine w.disk) :
    Act.Meets (openStore cfg) w
      (fun queue w' => Pristine w'.disk ∧ queue = [] ∧ w'.mem.slots = cfg.freshSlots)
      (fun _ w' => Pristine w'.disk ∧ (w.Calm → w.disk.data ≠ none ∧ w.disk.journals = [])) := by
  refine Act.Meets.bind (meets_attempt (fun _ => ?_) fun hcalm => ⟨h, fun hc => absurd hc hcalm⟩)
  refine Act.Meets.bind (Act.Meets.read ?_)
  have hcalm₁ : w.Calm → w.rest.Calm := fun hcalm => hcalm.later World.rest_later
  refine Act.Meets.bind (meets_openData.mono (fun seed w₁ h₁ => ?_) fun _ w₁ h₁ => ?_)
  · obtain ⟨-, hlater, f, hf, hdisk, hfrom⟩ := h₁
    refine Act.Meets.bind (Act.Meets.modify ?_)
    change Act.Meets (restore cfg w.disk.data.isSome) { w₁ with mem := { blank cfg with seed := seed } } _ _
    generalize hw₂ : ({ w₁ with mem := { blank cfg with seed := seed } } : World Blk Mem) = w₂
    have hslots : cfg.freshSlots = w₂.mem.slots := by rw [← hw₂]; rfl
    have hdisk : w₂.disk = { w.disk with data := some f } := by rw [← hw₂]; exact hdisk
    have hcalm₂ : w.Calm → w₂.Calm := fun hcalm => by
      rw [← hw₂]
      exact (hcalm₁ hcalm).later hlater
    rw [hslots]
    by_cases hnil : w.disk.journals = []
    · have hjournals : w₂.disk.journals = [] := by rw [hdisk]; exact hnil
      cases hdata : w.disk.data with
      | none =>
        have hinitial : f = .initial seed := by
          rcases hfrom with hold | hnew
          · exact nomatch (hdata.symm.trans hold)
          · exact hnew.2
        refine (meets_restore_new hjournals (by rw [hdisk])
          (hinitial ▸ DataFile.sealed_initial seed)).mono (fun _ _ hw' => hw') fun _ _ hw' => ?_
        exact ⟨hw'.1, fun hcalm => absurd (hcalm₂ hcalm) hw'.2⟩
      | some f₀ =>
        refine (meets_restore_unrooted hjournals).mono (fun _ _ hw' => hw') fun _ _ hw' => ?_
        exact ⟨hw', fun _ => ⟨nofun, hnil⟩⟩
    · have hsame : w₂.disk = w.disk := by
        rcases hfrom with hold | hnew
        · have hold : w.disk.data = some f := hold
          rw [hdisk, ← hold]
        · exact absurd hnew.1 (h.data_kept hnil)
      refine (meets_restore_unused (hsame ▸ h) (hsame ▸ hnil) _).mono (fun _ _ hw' => hw') fun _ _ hw' => ?_
      exact ⟨hw'.1, fun hcalm => absurd (hcalm₂ hcalm) hw'.2⟩
  · obtain ⟨⟨data, hdisk, hfrom⟩, hbad⟩ := h₁
    by_cases hnil : w.disk.journals = []
    · refine ⟨.of_unjournaled (by rw [hdisk]; exact hnil), fun hcalm => ⟨?_, hnil⟩⟩
      obtain ⟨f, hdata, -⟩ := hbad (hcalm₁ hcalm)
      have hdata : w.disk.data = some f := hdata
      rw [hdata]
      exact nofun
    · have hsame : w₁.disk = w.disk := by
        rcases hfrom with hold | hnew
        · rw [hdisk, hold]
          rfl
        · exact absurd hnew (h.data_kept hnil)
      refine ⟨hsame ▸ h, fun hcalm => ?_⟩
      obtain ⟨f, hdata, -, hunformatted⟩ := hbad (hcalm₁ hcalm)
      obtain ⟨f', hdata', hsealed⟩ := h.rooted hnil
      obtain ⟨seed, hseed⟩ := hsealed.formatted
      cases hdata.symm.trans hdata'
      exact absurd hseed (hunformatted seed)

end Open

section Retry

theorem readOf_fresh (hempty : w.mem.slots = cfg.freshSlots) (hash : Nat) (id : Id) :
    readOf cfg hash id w = (.ok none, w) := by
  change (if cfg.registered hash then _ else _ : Engine Blk (Option Bytes)) w = _
  by_cases hreg : cfg.registered hash = true
  · rw [if_pos hreg, hempty]
    rfl
  · rw [if_neg hreg]
    rfl

def Disk.new : Disk Blk := ⟨none, [], []⟩

def plainConfig : Config where
  types := [(7, false)]
  sorted := by decide
  bounded := by decide
  hashOf _ id := id.key
  relaxed := false

-- A first open that gets through nine operations: the tenth would cut the file.
def cutAfterJournal : List Verdict := List.replicate 9 ({} : Verdict) ++ [{ fails := true }]

-- Six operations leave a whole `data.bin` and no journal yet, and no later open
-- gets past that.
def cutBeforeJournal : List Verdict := List.replicate 6 ({} : Verdict) ++ [{ fails := true }]

end Retry

end WaveDb.Storage
