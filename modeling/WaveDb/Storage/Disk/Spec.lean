import WaveDb.Storage.Disk

-- What each file operation does, as rules for programs made of them.
namespace WaveDb.Storage

open WaveDb.Lib WaveDb.Core

variable {Blk M : Type} {w : World Blk M}

def World.rest (w : World Blk M) : World Blk M := { w with script := w.script.tail }

structure World.Same (w w' : World Blk M) : Prop where
  disk : w'.disk = w.disk
  mem : w'.mem = w.mem
  later : w'.script <:+ w.script

namespace World.Same

variable {w' w'' : World Blk M}

@[refl] theorem refl : w.Same w := ⟨rfl, rfl, List.suffix_rfl⟩

theorem rest : w.Same w.rest := ⟨rfl, rfl, List.tail_suffix _⟩

theorem trans (h : w.Same w') (h' : w'.Same w'') : w.Same w'' :=
  ⟨h'.disk.trans h.disk, h'.mem.trans h.mem, h'.later.trans h.later⟩

end World.Same

def World.Calm (w : World Blk M) : Prop := ∀ v ∈ w.script, v.fails = false

theorem World.Calm.head (h : w.Calm) : (w.script.headD {}).fails = false := by
  cases hscript : w.script with
  | nil => rfl
  | cons v script => exact h v (by simp [hscript])

theorem World.Calm.later {w' : World Blk M} (h : w.Calm) (hlater : w'.script <:+ w.script) : w'.Calm :=
  fun v hv => h v (hlater.subset hv)

theorem World.rest_later : w.rest.script <:+ w.script := List.tail_suffix _

section Rules

variable {α : Type} {err : StorageError → World Blk M → Prop}

theorem meets_ask {ok : Verdict → World Blk M → Prop}
    (h : ∀ v : Verdict, (w.Calm → v.fails = false) → ok v w.rest) : Act.Meets ask w ok err :=
  h _ fun hcalm => hcalm.head

theorem meets_attempt {ok : Verdict → World Blk M → Prop} (hok : ∀ v, ok v w.rest)
    (herr : ¬w.Calm → err .io w.rest) : Act.Meets attempt w ok err := by
  refine Act.Meets.bind (meets_ask fun v hv => ?_)
  cases hfails : v.fails with
  | true => exact herr fun hcalm => Bool.noConfusion ((hv hcalm).symm.trans hfails)
  | false => exact hok v

theorem meets_onDisk {ok : Unit → World Blk M → Prop} {f : Disk Blk → Disk Blk}
    (h : ok () (w.setDisk f)) : Act.Meets (onDisk f) w ok err := h

theorem meets_attempt_onDisk {ok : Unit → World Blk M → Prop} {f : Disk Blk → Disk Blk}
    (hok : ok () (w.rest.setDisk f)) (herr : ¬w.Calm → err .io w.rest) :
    Act.Meets (do let _ ← attempt; onDisk f) w ok err :=
  Act.Meets.bind (meets_attempt (fun _ => meets_onDisk hok) herr)

theorem meets_syncFile {ok : Unit → World Blk M → Prop} {ts : Nat}
    (hok : ok () (w.rest.setDisk fun d => d.setJournal ts JournalFile.sync))
    (herr : ¬w.Calm → err .io w.rest) : Act.Meets (syncFile ts) w ok err :=
  meets_attempt_onDisk hok herr

theorem meets_createFile {ok : Unit → World Blk M → Prop} {ts : Nat}
    (hok : (∀ j ∈ w.disk.journals, j.ts ≠ ts) → ok () (w.rest.setDisk fun d =>
      { d with journals := d.journals ++ [⟨ts, [], 0, false⟩] }))
    (herr : (w.Calm → ∃ j ∈ w.disk.journals, j.ts = ts) → err .io w.rest) :
    Act.Meets (createFile ts) w ok err := by
  refine Act.Meets.bind (meets_attempt (fun _ => ?_) fun hcalm => herr fun h => absurd h hcalm)
  refine Act.Meets.bind (Act.Meets.read ?_)
  by_cases htaken : (w.rest.disk.journals.any fun j => j.ts = ts) = true
  · rw [if_pos htaken]
    obtain ⟨j, hj, hts⟩ := List.any_eq_true.mp htaken
    exact herr fun _ => ⟨j, hj, by simpa using hts⟩
  · rw [if_neg htaken]
    refine meets_onDisk (hok fun j hj hts => htaken ?_)
    exact List.any_eq_true.mpr ⟨j, hj, by simpa using hts⟩

end Rules

section Data

variable [Media Blk] {f f' f'' : DataFile Blk} {run : Run} {image : List Blk}

def DataFile.grown (f : DataFile Blk) (len : Nat) : DataFile Blk :=
  if f.len < len then f.setLen len else f

end Data

section DataRules

variable [Media Blk] {f : DataFile Blk} {run : Run} {image : List Blk}
  {err : StorageError → World Blk M → Prop}

theorem meets_dataFile {ok : DataFile Blk → World Blk M → Prop} (hdata : w.disk.data = some f)
    (h : ok f w) : Act.Meets dataFile w ok err := by
  refine Act.Meets.read ?_
  rw [hdata]
  exact h

omit [Media Blk] in
theorem meets_syncData {ok : Unit → World Blk M → Prop}
    (hok : ok () (w.rest.setDisk fun d => d.setData DataFile.sync)) (herr : ¬w.Calm → err .io w.rest) :
    Act.Meets syncData w ok err :=
  meets_attempt_onDisk hok herr

omit [Media Blk] in
theorem setData_some {d : Disk Blk} (hdata : d.data = some f) (g : DataFile Blk → DataFile Blk) :
    d.setData g = { d with data := some (g f) } := by
  rw [Disk.setData, hdata]
  rfl

theorem meets_ensureLen {ok : Unit → World Blk M → Prop} (hdata : w.disk.data = some f) {len : Nat}
    (hok : ∀ w', w'.script <:+ w.script → w'.mem = w.mem →
      w'.disk = { w.disk with data := some (f.grown len) } → ok () w')
    (herr : ¬w.Calm → err .io w.rest) : Act.Meets (ensureLen len) w ok err := by
  refine Act.Meets.bind (meets_dataFile hdata ?_)
  by_cases hlen : f.len < len
  · rw [if_pos hlen]
    refine meets_attempt_onDisk (hok _ World.rest_later rfl ?_) herr
    have hgrown : f.grown len = f.setLen len := if_pos hlen
    rw [hgrown]
    exact setData_some hdata _
  · rw [if_neg hlen]
    refine Act.Meets.pure (hok _ List.suffix_rfl rfl ?_)
    have hgrown : f.grown len = f := if_neg hlen
    rw [hgrown, ← hdata]

end DataRules

end WaveDb.Storage
