import WaveDb.Storage.Disk.Spec

-- The journal files as carriers of commit frames: which frames there are, which
-- of them no power loss can take, and the order they come in.
namespace WaveDb.Storage

open WaveDb.Lib WaveDb.Core

variable {Blk : Type} {d d' : Disk Blk} {x y : Nat × CommitFrame}

section Carried

namespace Disk

def stamps (d : Disk Blk) : List Nat := d.journals.map (·.ts)

-- The commit frames by journal, and those of them that an fsync has covered.
def carried (d : Disk Blk) : List (Nat × CommitFrame) :=
  d.journals.flatMap fun j => (commitsOf j.frames).map fun c => (j.ts, c)

def lasting (d : Disk Blk) : List (Nat × CommitFrame) :=
  d.journals.flatMap fun j => (commitsOf (j.frames.take j.synced)).map fun c => (j.ts, c)

theorem mem_carried : x ∈ d.carried ↔ ∃ j ∈ d.journals, j.ts = x.1 ∧ x.2 ∈ commitsOf j.frames := by
  obtain ⟨ts, c⟩ := x
  simp only [carried, List.mem_flatMap, List.mem_map, Prod.mk.injEq]
  constructor
  · rintro ⟨j, hj, c', hc', rfl, rfl⟩
    exact ⟨j, hj, rfl, hc'⟩
  · rintro ⟨j, hj, rfl, hc⟩
    exact ⟨j, hj, c, hc, rfl, rfl⟩

theorem mem_lasting :
    x ∈ d.lasting ↔ ∃ j ∈ d.journals, j.ts = x.1 ∧ x.2 ∈ commitsOf (j.frames.take j.synced) := by
  obtain ⟨ts, c⟩ := x
  simp only [lasting, List.mem_flatMap, List.mem_map, Prod.mk.injEq]
  constructor
  · rintro ⟨j, hj, c', hc', rfl, rfl⟩
    exact ⟨j, hj, rfl, hc'⟩
  · rintro ⟨j, hj, rfl, hc⟩
    exact ⟨j, hj, c, hc, rfl, rfl⟩

theorem commitsOf_take_subset {frames : List JournalFrame} {n : Nat} {c : CommitFrame}
    (h : c ∈ commitsOf (frames.take n)) : c ∈ commitsOf frames :=
  ((List.take_sublist n frames).filterMap _).subset h

end Disk

end Carried

section Change

structure Firmer (d d' : Disk Blk) : Prop where
  stamps : d'.stamps = d.stamps
  synced : (∀ j ∈ d.journals, j.synced ≤ j.frames.length) → ∀ j ∈ d'.journals, j.synced ≤ j.frames.length
  carried : ∀ x, x ∈ d'.carried ↔ x ∈ d.carried
  lasting : ∀ x ∈ d.lasting, x ∈ d'.lasting

theorem sorted_stamps : d.journals.Pairwise (fun i j => i.ts < j.ts) ↔ d.stamps.Pairwise (· < ·) :=
  List.pairwise_map.symm

end Change

section Loss

theorem exists_of_forall₂ {js js' : List JournalFile} (h : List.Forall₂ JournalFile.Loses js js')
    {j' : JournalFile} (hj' : j' ∈ js') : ∃ j ∈ js, j.Loses j' := by
  induction h with
  | nil => cases hj'
  | cons hj _ ih =>
    rcases List.mem_cons.mp hj' with rfl | hj'
    · exact ⟨_, List.mem_cons_self, hj⟩
    · obtain ⟨j, hmem, hloses⟩ := ih hj'
      exact ⟨j, List.mem_cons_of_mem _ hmem, hloses⟩

end Loss

section Newest

-- The frame a reopen takes for its root: the last one, newest journal last.
def Disk.newest (d : Disk Blk) : Option CommitFrame :=
  (d.journals.flatMap fun j => commitsOf j.frames).getLast?

theorem map_snd_carried : d.carried.map Prod.snd = d.journals.flatMap fun j => commitsOf j.frames := by
  simp only [Disk.carried, List.map_flatMap, List.map_map, Function.comp_def, List.map_id']

theorem newest_eq_none : d.newest = none ↔ d.carried = [] := by
  rw [Disk.newest, ← map_snd_carried, List.getLast?_eq_none_iff, List.map_eq_nil_iff]

end Newest

end WaveDb.Storage
