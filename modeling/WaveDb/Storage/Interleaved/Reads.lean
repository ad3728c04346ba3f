import WaveDb.Storage.Interleaved.Sound
import WaveDb.Storage.Checkpoint.Project

-- Reads among the locks of a settle.
namespace WaveDb.Storage.Interleaved

open WaveDb.Lib WaveDb.Core

section Pages

variable {Blk : Type} [Media Blk] {cfg : Config} {w : World Blk Mem} {hash : Nat} {slot : Slot}

def Slot.read (slot : Slot) (id : Id) : Option Bytes :=
  (slot.cache.get id).or (if id ∈ slot.dead then none else slot.pages id)

end Pages

section Runs

-- Nothing is evicted while a round is off the queue, no read looks into the
-- pages between a tombstone and its directory, and tombstones are cleared for
-- ids that the round leaves out.
def Undisturbed (s : State) : Label → Prop
  | .evict _ _ => s.round = none
  | .look reader => ∀ r, s.readers reader = some r → r.look = .alive → ¬s.Gone r.hash r.id
  | .clearRemoved => ∀ round hash ids rest d id cleared, s.round = some round → round.taken = (hash, ids) :: rest →
      round.draft hash = some d → d.cleared = id :: cleared → d.contents id = none
  | _ => True

def Reaches (pages : Nat → Id → Option Bytes) : State → Prop :=
  Leads (fun s l s' => s.step l = some s') Undisturbed (State.opened pages)

variable {s s' : State} {pages : Nat → Id → Option Bytes}

theorem sound_opened (pages : Nat → Id → Option Bytes) : Sound (State.opened pages) := by
  refine ⟨fun hash id => ⟨.inl rfl, ?_, fun _ _ => rfl, fun _ _ => rfl, fun _ hdead => ?_, fun _ hnone => .inr (.inl hnone),
    fun _ _ _ hd => (nomatch hd)⟩, fun _ => List.Pairwise.nil, fun _ hr => (nomatch hr), fun _ _ _ hc => (nomatch hc),
    fun _ hc => (nomatch hc), fun _ _ hr => (nomatch hr)⟩
  · rintro ((⟨t, ht, -⟩ | ⟨c, hc, -⟩) | ⟨r, hr, -⟩)
    · cases ht
    · cases hc
    · cases hr
  · exact absurd hdead (Finset.notMem_empty id)

theorem Sound.step (h : Sound s) {l : Label} (hok : Undisturbed s l) (hs : s.step l = some s') : Sound s' := by
  cases l with
  | read reader hash id => exact h.read hs
  | look reader => exact h.look hok hs
  | apply batch => exact h.apply hs
  | cacheWrite => exact h.cacheWrite hs
  | deadWrite => exact h.deadWrite hs
  | queue => exact h.queue hs
  | evict hash target => exact h.evict hok hs
  | take budget => exact h.take hs
  | openSlot => exact h.openSlot hs
  | planId => exact h.planId hs
  | closeSlot => exact h.closeSlot hs
  | place => exact h.place hs
  | fail => exact h.fail hs
  | clearRemoved => exact h.clearRemoved hok hs
  | install => exact h.install hs
  | finish => exact h.finish hs

def State.calm (s : State) : Label → Bool
  | .evict _ _ => false
  | .clearRemoved => false
  | .look reader => (s.readers reader).all fun r => r.look ≠ .alive
  | _ => true

theorem undisturbed_of_calm {l : Label} (h : s.calm l = true) : Undisturbed s l := by
  cases l with
  | evict hash target => cases h
  | clearRemoved => cases h
  | look reader =>
    intro r hr halive
    rw [State.calm, hr, Option.all_some, halive] at h
    cases h
  | _ => trivial

def State.execCalm (s : State) (labels : List Label) : Option State :=
  labels.foldlM (fun s l => if s.calm l then s.step l else none) s

theorem Reaches.execCalm (h : Reaches pages s) {labels : List Label} (hs : s.execCalm labels = some s') :
    Reaches pages s' := by
  induction labels generalizing s with
  | nil =>
    cases hs
    exact h
  | cons l labels ih =>
    rw [State.execCalm, List.foldlM_cons] at hs
    obtain ⟨s₁, hs₁, hs⟩ := Option.bind_eq_some_iff.mp hs
    split at hs₁
    · rename_i hcalm
      exact ih (Leads.step h (undisturbed_of_calm hcalm) hs₁) hs
    · cases hs₁

theorem Reaches.sound (h : Reaches pages s) : Sound s :=
  Leads.invariant h (sound_opened pages) fun _ _ _ hsound hok hs => hsound.step hok hs

theorem Sound.held (h : Sound s) {hash : Nat} {id : Id} {bytes : Bytes} (hlast : s.last hash id = some bytes) :
    (s.slots hash).cache.get id = some bytes ∨ (s.slots hash).pages id = some bytes := by
  have hkey := h.keys hash id
  rcases hkey.cached with hnone | hcached
  · have hclean : ¬(s.Dirty hash id ∨ s.Taken hash id) := by
      intro hkept
      have hsome := hkey.kept hkept
      rw [hnone, hlast] at hsome
      cases hsome
    rw [not_or] at hclean
    exact .inr ((hkey.settled hclean.1 hclean.2).trans hlast)
  · exact .inl (hcached.trans hlast)

-- In an undisturbed run a read that no apply of its id overlapped returns what was
-- applied last, and nothing applied is missing from cache and pages both.
theorem reads_correct_while_settling (h : Reaches pages s) :
    (∀ i r found expected, s.readers i = some r → r.overlapped = false → r.look = .done found expected →
      found = expected) ∧
    ∀ hash id bytes, s.last hash id = some bytes →
      (s.slots hash).cache.get id = some bytes ∨ (s.slots hash).pages id = some bytes := by
  refine ⟨fun i r found expected hr hover hdone => ?_, fun _ _ _ hlast => h.sound.held hlast⟩
  have hreader := h.sound.readers i r hr hover
  rw [ReaderSound, hdone] at hreader
  exact hreader

def sampleId : Id := ⟨3, 1, 0⟩

def sampleRecord : Bytes := [7, 0, 0, 0, 0, 0, 0, 0, 1]

def samplePages (hash : Nat) (id : Id) : Option Bytes :=
  if hash = 7 ∧ id = sampleId then some sampleRecord else none

def applying (w : Write Bytes) : List Label := [.apply [w], .cacheWrite, .deadWrite, .queue]

def reading : List Label := [.read 0 7 sampleId, .look 0, .look 0, .look 0]

-- A round that removes the record is planned and placed. The read finds the
-- tombstone.
theorem reads_correct_while_settling_sample :
    ∃ s, Reaches samplePages s ∧ s.readers 0 = some ⟨7, sampleId, .done none none, false⟩ ∧
      ∀ found expected, some (⟨7, sampleId, .done found expected, false⟩ : Reader) = s.readers 0 → found = expected := by
  have hrun : ((State.opened samplePages).execCalm (List.flatten [applying (.remove 7 sampleId),
      [.take none, .openSlot, .planId, .closeSlot, .place, .read 0 7 sampleId, .look 0, .look 0]])).bind (·.readers 0) =
        some ⟨7, sampleId, .done none none, false⟩ := by
    decide +kernel
  obtain ⟨s, hs, hreader⟩ := Option.bind_eq_some_iff.mp hrun
  have hreaches : Reaches samplePages s := Reaches.execCalm .start hs
  refine ⟨s, hreaches, hreader, fun found expected hr => ?_⟩
  exact (reads_correct_while_settling hreaches).1 0 _ found expected hr.symm rfl rfl

-- An eviction while the round is off the queue takes a record that is in no
-- page yet.
def evictedInRound : List Label :=
  List.flatten [applying (.put sampleId sampleRecord), [.take none, .evict 7 100], reading]

def readInPublish : List Label :=
  List.flatten [applying (.remove 7 sampleId), [.take none, .openSlot, .planId, .closeSlot, .place, .clearRemoved],
    reading]

-- A round that has an id twice finds it removed first and put later: the tombstone of
-- its next removal is cleared with the record in the page.
def plannedTwice : List Label :=
  List.flatten [applying (.put sampleId sampleRecord), applying (.remove 7 sampleId), [.take none, .openSlot, .planId],
    applying (.put sampleId sampleRecord), [.planId, .closeSlot, .place], applying (.remove 7 sampleId),
    [.clearRemoved, .install, .finish], reading]

def readAfter (pages : Nat → Id → Option Bytes) (labels : List Label) : Option Reader :=
  ((State.opened pages).exec labels).bind (·.readers 0)

-- No apply overlaps these reads. The first misses what was applied, the others
-- find what was removed.
theorem reads_wrong_while_settling :
    readAfter (fun _ _ => none) evictedInRound = some ⟨7, sampleId, .done none (some sampleRecord), false⟩ ∧
    readAfter samplePages readInPublish = some ⟨7, sampleId, .done (some sampleRecord) none, false⟩ ∧
    readAfter (fun _ _ => none) plannedTwice = some ⟨7, sampleId, .done (some sampleRecord) none, false⟩ := by
  decide +kernel

end Runs

end WaveDb.Storage.Interleaved
