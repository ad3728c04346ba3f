import WaveDb.Wire.Checked
import WaveDb.Wire.Project

-- A journal file as bytes: frames behind a length, replayed up to the first
-- place that holds none.
namespace WaveDb.Storage.JournalBytes

open WaveDb.Lib WaveDb.Wire

variable {Γ : Env} {ty : WireTy}

def framePrefixLen : Nat := 4

inductive Fault
  | io
  | panic
  | fuel
  deriving DecidableEq

-- The file, and the offset the next append lands at.
structure Journal where
  file : List UInt8
  tail : Nat
  deriving DecidableEq

-- The length is cast to 32 bits.
def frameBytes (frame : Val Γ ty) : List UInt8 :=
  leBytes framePrefixLen (toWireChecked frame).length ++ toWireChecked frame

def writeAllAt (file : List UInt8) (offset : Nat) (buf : List UInt8) : List UInt8 :=
  file.take offset ++ List.replicate (offset - file.length) 0 ++ buf ++
    file.drop (offset + buf.length)

def slice (buf : List UInt8) (start stop : Nat) : Except Fault (List UInt8) :=
  if start ≤ stop ∧ stop ≤ buf.length then .ok ((buf.drop start).take (stop - start))
  else .error .panic

-- Any fault of a frame is a torn tail. `fuel` is what decoding one is given.
def replayLoop (fuel : Nat) (ty : WireTy) (buf : List UInt8) :
    Nat → Nat → Nat → List (Val Γ ty) → Except Fault (List (Val Γ ty) × Nat)
  | 0, _, _, _ => .error .fuel
  | rounds + 1, pos, goodEnd, frames =>
    if pos + framePrefixLen ≤ buf.length then do
      let head ← slice buf pos (pos + framePrefixLen)
      let bodyStart := pos + framePrefixLen
      let bodyEnd := bodyStart + ofLeBytes head
      if buf.length < bodyEnd then return (frames, goodEnd)
      else do
        let body ← slice buf bodyStart bodyEnd
        match (fromWireChecked fuel ty body : Except CheckedError (Val Γ ty)) with
        | .ok frame => replayLoop fuel ty buf rounds bodyEnd bodyEnd (frames ++ [frame])
        | .error (.stop .fuel) => .error .fuel
        | .error _ => return (frames, goodEnd)
    else return (frames, goodEnd)

namespace Journal

def create : Journal := ⟨[], 0⟩

def openFile (file : List UInt8) : Journal := ⟨file, file.length⟩

def writeFrame (j : Journal) (frame : Val Γ ty) : Journal :=
  ⟨writeAllAt j.file j.tail (frameBytes frame), j.tail + (frameBytes frame).length⟩

def replay (fuel : Nat) (ty : WireTy) (j : Journal) :
    Except Fault (List (Val Γ ty) × Journal) :=
  if j.file.length < j.tail then .error .io
  else do
    let buf := j.file.take j.tail
    let (frames, goodEnd) ← replayLoop fuel ty buf (buf.length + 1) 0 0 []
    if goodEnd < j.tail then return (frames, ⟨j.file.take goodEnd, goodEnd⟩)
    else return (frames, j)

end Journal

section Files

def encodeAll (frames : List (Val Γ ty)) : List UInt8 := frames.flatMap frameBytes

-- A frame whose length fits its 32 bits, and that the fuel can decode.
def Fits (fuel : Nat) (frame : Val Γ ty) : Prop :=
  (toWireChecked frame).length < 2 ^ 32 ∧ frame.depth ≤ fuel

-- Too few bytes for a length, fewer than the length says, or refused by the checked
-- codec.
def NoFrame (Γ : Env) (fuel : Nat) (ty : WireTy) (bytes : List UInt8) : Prop :=
  bytes.length < framePrefixLen + ofLeBytes (bytes.take framePrefixLen) ∨
    bytes.length < framePrefixLen ∨
    ∃ e, e ≠ .stop .fuel ∧ (fromWireChecked fuel ty ((bytes.drop framePrefixLen).take
      (ofLeBytes (bytes.take framePrefixLen))) : Except CheckedError (Val Γ ty)) = .error e

def whole : Nat → List (Val Γ ty) → List (Val Γ ty)
  | _, [] => []
  | n, frame :: frames =>
    if (frameBytes frame).length ≤ n then frame :: whole (n - (frameBytes frame).length) frames
    else []

-- What can happen to the file of a journal with these frames, and the frames
-- before the damage.
inductive Damaged (fuel : Nat) (file : List UInt8) (frames : List (Val Γ ty)) :
    List UInt8 → List (Val Γ ty) → Prop
  | cut (n : Nat) : Damaged fuel file frames (file.take n) (whole n frames)
  | junk (k : Nat) (bytes : List UInt8) (hbytes : NoFrame Γ fuel ty bytes) :
      Damaged fuel file frames (file.take (encodeAll (frames.take k)).length ++ bytes)
        (frames.take k)

inductive Rounds (fuel : Nat) : Journal → List (Val Γ ty) → Prop
  | create : Rounds fuel .create []
  | append {j : Journal} {frames : List (Val Γ ty)} (h : Rounds fuel j frames) (frame : Val Γ ty)
      (hfits : Fits fuel frame) : Rounds fuel (j.writeFrame frame) (frames ++ [frame])
  | reopen {j j' : Journal} {frames kept got : List (Val Γ ty)} {file : List UInt8}
      (h : Rounds fuel j frames) (hdamage : Damaged fuel j.file frames file kept)
      (hreplay : (Journal.openFile file).replay fuel ty = .ok (got, j')) : Rounds fuel j' got

end Files

section Replay

variable {fuel : Nat} {frames : List (Val Γ ty)}

theorem encodeAll_append (a b : List (Val Γ ty)) :
    encodeAll (a ++ b) = encodeAll a ++ encodeAll b := List.flatMap_append

theorem length_frameBytes (frame : Val Γ ty) :
    (frameBytes frame).length = framePrefixLen + (toWireChecked frame).length := by
  simp [frameBytes]

theorem ofLeBytes_frameBytes {frame : Val Γ ty} (h : Fits fuel frame) (rest : List UInt8) :
    ofLeBytes ((frameBytes frame ++ rest).take framePrefixLen) = (toWireChecked frame).length := by
  rw [frameBytes, List.append_assoc, List.take_left' (length_leBytes _ _),
    ofLeBytes_leBytes_of_lt _ _ h.1]

theorem slice_append (a b : List UInt8) (len : Nat) (h : len ≤ b.length) :
    slice (a ++ b) a.length (a.length + len) = .ok (b.take len) := by
  have hrange : a.length ≤ a.length + len ∧ a.length + len ≤ (a ++ b).length := by
    rw [List.length_append]
    omega
  rw [slice, if_pos hrange, List.drop_left' rfl, Nat.add_sub_cancel_left]

theorem replayLoop_stop {front bytes : List UInt8} (h : NoFrame Γ fuel ty bytes) (rounds goodEnd : Nat) :
    replayLoop fuel ty (front ++ bytes) (rounds + 1) front.length goodEnd frames =
      .ok (frames, goodEnd) := by
  rw [replayLoop]
  by_cases hshort : bytes.length < framePrefixLen
  · rw [if_neg (by rw [List.length_append]; omega)]
    rfl
  · rw [if_pos (by rw [List.length_append]; omega),
      slice_append front bytes framePrefixLen (by omega)]
    simp only [bind, Except.bind]
    by_cases hover : bytes.length < framePrefixLen + ofLeBytes (bytes.take framePrefixLen)
    · rw [if_pos (by rw [List.length_append]; omega)]
      rfl
    · have hbody := slice_append (front ++ bytes.take framePrefixLen) (bytes.drop framePrefixLen)
        (ofLeBytes (bytes.take framePrefixLen)) (by rw [List.length_drop]; omega)
      rw [List.append_assoc, List.take_append_drop, List.length_append, List.length_take,
        Nat.min_eq_left (by omega)] at hbody
      rw [if_neg (by rw [List.length_append]; omega), hbody]
      obtain hover' | hshort' | ⟨e, hne, he⟩ := h
      · exact absurd hover' hover
      · exact absurd hshort' hshort
      · simp only [he]
        cases e with
        | crcMismatch stored computed => rfl
        | stop stop =>
          cases stop with
          | error e => rfl
          | fuel => exact absurd rfl hne

variable (hΓ : Γ.UnitsSized) (hty : ty.UnitsSized Γ)

include hΓ hty

theorem replayLoop_frames {front bytes : List UInt8} {acc : List (Val Γ ty)}
    (hfits : ∀ frame ∈ frames, Fits fuel frame) (h : NoFrame Γ fuel ty bytes) {rounds : Nat}
    (hrounds : frames.length < rounds) :
    replayLoop fuel ty (front ++ encodeAll frames ++ bytes) rounds front.length front.length acc =
      .ok (acc ++ frames, (front ++ encodeAll frames).length) := by
  induction frames generalizing front acc rounds with
  | nil =>
    obtain ⟨rounds, rfl⟩ := Nat.exists_eq_add_one_of_ne_zero (Nat.ne_of_gt hrounds)
    simp only [encodeAll, List.flatMap_nil, List.append_nil]
    exact replayLoop_stop h rounds _
  | cons frame frames ih =>
    obtain ⟨rounds, rfl⟩ := Nat.exists_eq_add_one_of_ne_zero (by omega : rounds ≠ 0)
    have hframe := hfits frame List.mem_cons_self
    have hlen := length_frameBytes frame
    have hbuf : front ++ encodeAll (frame :: frames) ++ bytes =
        front ++ (frameBytes frame ++ (encodeAll frames ++ bytes)) := by
      simp [encodeAll]
    have hhead := slice_append front (frameBytes frame ++ (encodeAll frames ++ bytes))
      framePrefixLen (by rw [List.length_append]; omega)
    have hbody := slice_append (front ++ leBytes framePrefixLen (toWireChecked frame).length)
      (toWireChecked frame ++ (encodeAll frames ++ bytes)) (toWireChecked frame).length (by simp)
    rw [List.append_assoc, ← List.append_assoc (leBytes _ _), ← frameBytes, List.length_append,
      length_leBytes, List.take_left' rfl] at hbody
    have hdecode := fromWireChecked_toWireChecked hΓ hty frame hframe.1 hframe.2
    have hnext : replayLoop fuel ty (front ++ frameBytes frame ++ encodeAll frames ++ bytes) rounds
        (front ++ frameBytes frame).length (front ++ frameBytes frame).length (acc ++ [frame]) = _ :=
      ih (fun f hf => hfits f (List.mem_cons_of_mem _ hf))
        (by rw [List.length_cons] at hrounds; omega)
    rw [hbuf, replayLoop, if_pos (by simp only [List.length_append]; omega), hhead]
    simp only [bind, Except.bind, ofLeBytes_frameBytes hframe]
    rw [if_neg (by simp only [List.length_append]; omega), hbody]
    simp only [hdecode]
    rw [List.length_append, hlen, ← Nat.add_assoc] at hnext
    simpa only [encodeAll, List.flatMap_cons, List.append_assoc, List.cons_append,
      List.nil_append] using hnext

-- A file of whole frames and then none: the frames come back and the rest is cut.
theorem replay_openFile {bytes : List UInt8} (hfits : ∀ frame ∈ frames, Fits fuel frame)
    (h : NoFrame Γ fuel ty bytes) :
    (Journal.openFile (encodeAll frames ++ bytes)).replay fuel ty =
      .ok (frames, ⟨encodeAll frames, (encodeAll frames).length⟩) := by
  have hlen : frames.length ≤ (encodeAll frames).length := by
    clear hfits h
    induction frames with
    | nil => exact Nat.zero_le _
    | cons frame frames ih =>
      have hframe := length_frameBytes frame
      simp only [encodeAll, List.flatMap_cons, List.length_cons, List.length_append] at ih ⊢
      rw [hframe, framePrefixLen]
      omega
  have hloop : replayLoop fuel ty ([] ++ encodeAll frames ++ bytes)
      ((encodeAll frames ++ bytes).length + 1) ([] : List UInt8).length ([] : List UInt8).length [] = _ :=
    replayLoop_frames hΓ hty hfits h (by rw [List.length_append]; omega)
  rw [List.nil_append, List.nil_append, List.length_nil] at hloop
  rw [Journal.replay, Journal.openFile, if_neg (Nat.lt_irrefl _)]
  simp only [List.take_length, hloop, bind, Except.bind]
  split
  · rw [List.take_left' rfl]
    rfl
  · rename_i hfull
    have hempty : bytes = [] := by
      rw [List.length_append] at hfull
      exact List.eq_nil_of_length_eq_zero (by omega)
    simp [hempty, pure, Except.pure]

omit hΓ hty in
theorem whole_fits {n : Nat} (hfits : ∀ frame ∈ frames, Fits fuel frame) :
    ∀ frame ∈ whole n frames, Fits fuel frame := by
  induction frames generalizing n with
  | nil => exact fun frame hframe => absurd hframe List.not_mem_nil
  | cons first frames ih =>
    intro frame hframe
    rw [whole] at hframe
    split at hframe
    · rcases List.mem_cons.mp hframe with rfl | hframe
      · exact hfits _ List.mem_cons_self
      · exact ih (fun f hf => hfits f (List.mem_cons_of_mem _ hf)) frame hframe
    · exact absurd hframe List.not_mem_nil

omit hΓ hty in
theorem exists_torn (n : Nat) (hfits : ∀ frame ∈ frames, Fits fuel frame) :
    ∃ bytes, (encodeAll frames).take n = encodeAll (whole n frames) ++ bytes ∧
      NoFrame Γ fuel ty bytes := by
  induction frames generalizing n with
  | nil => exact ⟨[], by simp [encodeAll, whole], .inr (.inl (by decide))⟩
  | cons frame frames ih =>
    have hsplit : encodeAll (frame :: frames) = frameBytes frame ++ encodeAll frames := by
      simp [encodeAll]
    rw [whole, hsplit]
    by_cases hwhole : (frameBytes frame).length ≤ n
    · obtain ⟨bytes, hbytes, hno⟩ := ih (n - (frameBytes frame).length)
        fun f hf => hfits f (List.mem_cons_of_mem _ hf)
      refine ⟨bytes, ?_, hno⟩
      rw [if_pos hwhole, List.take_append, List.take_of_length_le hwhole, hbytes]
      simp [encodeAll]
    · refine ⟨(frameBytes frame).take n, ?_, ?_⟩
      · rw [if_neg hwhole, List.take_append_of_le_length (by omega)]
        rfl
      · have hlen := length_frameBytes frame
        by_cases hshort : n < framePrefixLen
        · refine .inr (.inl ?_)
          rw [List.length_take]
          omega
        · refine .inl ?_
          have hhead := ofLeBytes_frameBytes (hfits frame List.mem_cons_self) []
          rw [List.append_nil] at hhead
          rw [List.take_take, Nat.min_eq_left (by omega), hhead, List.length_take]
          omega

theorem Damaged.intact {file damaged : List UInt8} {kept : List (Val Γ ty)}
    (h : Damaged fuel file frames damaged kept) (hfile : file = encodeAll frames)
    (hfits : ∀ frame ∈ frames, Fits fuel frame) :
    (∀ frame ∈ kept, Fits fuel frame) ∧ (Journal.openFile damaged).replay fuel ty =
      .ok (kept, ⟨encodeAll kept, (encodeAll kept).length⟩) := by
  subst hfile
  cases h with
  | cut n =>
    obtain ⟨bytes, hbytes, hno⟩ := exists_torn n hfits
    rw [hbytes]
    exact ⟨whole_fits hfits, replay_openFile hΓ hty (whole_fits hfits) hno⟩
  | junk k bytes hno =>
    have hkept : ∀ frame ∈ frames.take k, Fits fuel frame :=
      fun frame hframe => hfits frame (List.mem_of_mem_take hframe)
    have hall : encodeAll frames = encodeAll (frames.take k) ++ encodeAll (frames.drop k) := by
      rw [← encodeAll_append, List.take_append_drop]
    rw [hall, List.take_left' rfl]
    exact ⟨hkept, replay_openFile hΓ hty hkept hno⟩

omit hΓ hty in
theorem writeAllAt_length (file buf : List UInt8) :
    writeAllAt file file.length buf = file ++ buf := by
  simp [writeAllAt]

omit hΓ hty in
theorem writeFrame_eq (frame : Val Γ ty) :
    (⟨encodeAll frames, (encodeAll frames).length⟩ : Journal).writeFrame frame =
      ⟨encodeAll (frames ++ [frame]), (encodeAll (frames ++ [frame])).length⟩ := by
  have hall : encodeAll (frames ++ [frame]) = encodeAll frames ++ frameBytes frame := by
    simp [encodeAll]
  rw [Journal.writeFrame, writeAllAt_length, hall, List.length_append]

omit hΓ hty in
theorem writeFrames_eq (more : List (Val Γ ty)) :
    more.foldl Journal.writeFrame ⟨encodeAll frames, (encodeAll frames).length⟩ =
      ⟨encodeAll (frames ++ more), (encodeAll (frames ++ more)).length⟩ := by
  induction more generalizing frames with
  | nil => simp
  | cons frame more ih =>
    rw [List.foldl_cons, writeFrame_eq, ih, List.append_assoc, List.singleton_append]

theorem Rounds.holds {j : Journal} (h : Rounds fuel j frames) :
    j = ⟨encodeAll frames, (encodeAll frames).length⟩ ∧ ∀ frame ∈ frames, Fits fuel frame := by
  induction h with
  | create => exact ⟨rfl, fun frame hframe => absurd hframe List.not_mem_nil⟩
  | append _ frame hframe ih =>
    obtain ⟨rfl, hfits⟩ := ih
    refine ⟨writeFrame_eq frame, fun f hf => ?_⟩
    rcases List.mem_append.mp hf with hf | hf
    · exact hfits f hf
    · rw [List.mem_singleton.mp hf]
      exact hframe
  | reopen _ hdamage hreplay ih =>
    obtain ⟨rfl, hfits⟩ := ih
    obtain ⟨hkept, hback⟩ := hdamage.intact hΓ hty rfl hfits
    rw [hback] at hreplay
    cases hreplay
    exact ⟨rfl, hkept⟩

-- A damaged file gives the frames before the damage, loses the rest, and takes further
-- frames behind them.
theorem journal_replays_intact {j : Journal} (h : Rounds fuel j frames) {damaged : List UInt8}
    {kept : List (Val Γ ty)} (hdamage : Damaged fuel j.file frames damaged kept) :
    ∃ j', (Journal.openFile damaged).replay fuel ty = .ok (kept, j') ∧
      j'.file = encodeAll kept ∧ j'.file <+: damaged ∧
      ∀ more : List (Val Γ ty), (∀ frame ∈ more, Fits fuel frame) →
        ∃ j'', (Journal.openFile (more.foldl Journal.writeFrame j').file).replay fuel ty =
          .ok (kept ++ more, j'') := by
  obtain ⟨rfl, hfits⟩ := h.holds hΓ hty
  obtain ⟨hkept, hback⟩ := hdamage.intact hΓ hty rfl hfits
  refine ⟨_, hback, rfl, ?_, fun more hmore => ?_⟩
  · cases hdamage with
    | cut n =>
      obtain ⟨bytes, hbytes, -⟩ := exists_torn n hfits
      exact ⟨bytes, hbytes.symm⟩
    | junk k bytes hno =>
      have hall : encodeAll frames = encodeAll (frames.take k) ++ encodeAll (frames.drop k) := by
        rw [← encodeAll_append, List.take_append_drop]
      simp only [hall, List.take_left' rfl]
      exact List.prefix_append _ _
  · have hall : ∀ frame ∈ kept ++ more, Fits fuel frame := by
      intro frame hframe
      rcases List.mem_append.mp hframe with hframe | hframe
      · exact hkept frame hframe
      · exact hmore frame hframe
    have hread : (Journal.openFile (encodeAll (kept ++ more) ++ [])).replay fuel ty = _ :=
      replay_openFile hΓ hty hall (.inr (.inl (by decide)))
    rw [List.append_nil] at hread
    rw [writeFrames_eq]
    exact ⟨_, hread⟩

end Replay

section Frames

-- `Id`, `Write`, `CommitFrame` and `JournalFrame`.
def frameEnv : Env where
  decl
    | 0 => .struct [.scalar .u128]
    | 1 => .enum [.fields [.derived 0, .vec (.scalar .u8)], .fields [.scalar .u64, .derived 0],
        .fields [.scalar .u64, .derived 0, .option (.vec (.scalar .u8))]] (by decide)
    | 2 => .struct [.scalar .u64, .scalar .u64]
    | 3 => .enum [.fields [.vec (.derived 1)], .fields [.derived 2]] (by decide)
    | _ => .struct []
  size
    | 0 => 16
    | 1 => 5
    | 2 => 16
    | 3 => 5
    | _ => 0
  size_eq
    | 0 => rfl
    | 1 => rfl
    | 2 => rfl
    | 3 => rfl
    | _ + 4 => rfl

abbrev Frame := Val frameEnv (.derived 3)

def putWrite (id : BitVec 128) (bytes : List UInt8) : Val frameEnv (.derived 1) :=
  .variant rfl 0 rfl (.cons (.struct rfl (.cons (.scalar id) .nil)) (.cons (.vec (byteUnits bytes)) .nil))

def batchFrame (write : Val frameEnv (.derived 1)) : Frame :=
  .variant rfl 0 rfl (.cons (.vec (.cons write .nil)) .nil)

def commitFrame (journalTs head : BitVec 64) : Frame :=
  .variant rfl 1 rfl (.cons (.struct rfl (.cons (.scalar journalTs) (.cons (.scalar head) .nil))) .nil)

theorem frameEnv_unitsSized : frameEnv.UnitsSized := by
  rintro (_ | _ | _ | _ | name)
  · exact ⟨trivial, trivial⟩
  · intro variant hvariant
    simp only [List.mem_cons, List.not_mem_nil, or_false] at hvariant
    rcases hvariant with rfl | rfl | rfl
    · exact ⟨trivial, ⟨by decide, trivial⟩, trivial⟩
    · exact ⟨trivial, trivial, trivial⟩
    · exact ⟨trivial, trivial, ⟨by decide, trivial⟩, trivial⟩
  · exact ⟨trivial, trivial, trivial⟩
  · intro variant hvariant
    simp only [List.mem_cons, List.not_mem_nil, or_false] at hvariant
    rcases hvariant with rfl | rfl
    · exact ⟨⟨by decide, trivial⟩, trivial⟩
    · exact ⟨trivial, trivial⟩
  · trivial

theorem frame_unitsSized : WireTy.UnitsSized frameEnv (.derived 3) := trivial

theorem length_batchFrame (id : BitVec 128) (bytes : List UInt8) :
    (toWireChecked (batchFrame (putWrite id bytes))).length = 38 + bytes.length := by
  have hstack : frameEnv.stackSize (.derived 3) = 5 := rfl
  have hheap : (batchFrame (putWrite id bytes)).heapSize = 29 + bytes.length := by
    have hvec : frameEnv.stackSizes [.vec (.derived 1)] = 4 := rfl
    have hunit : frameEnv.stackSize (.derived 1) = 5 := rfl
    have hput : frameEnv.stackSizes [.derived 0, .vec (.scalar .u8)] = 20 := rfl
    simp only [batchFrame, putWrite, Val.heapSize, Fields.heapSize, Units.heapSize,
      heapSize_byteUnits, hvec, hunit, hput]
    omega
  rw [length_toWireChecked, length_toWire, hstack, hheap, crcPrefixLen]
  omega

theorem length_commitFrame (journalTs head : BitVec 64) :
    (toWireChecked (commitFrame journalTs head)).length = 25 := by
  have hheap : (commitFrame journalTs head).heapSize = 16 := rfl
  have hstack : frameEnv.stackSize (.derived 3) = 5 := rfl
  rw [length_toWireChecked, length_toWire, hheap, hstack, crcPrefixLen]

-- Two commit frames of 29 bytes, cut at byte 40.
theorem journal_replays_intact_sample :
    frameEnv.UnitsSized ∧ ∃ j : Journal,
      Rounds 8 j [commitFrame 1 2, commitFrame 3 4] ∧
      Damaged 8 j.file [commitFrame 1 2, commitFrame 3 4] (j.file.take 40) [commitFrame 1 2] ∧
      ∃ j', (Journal.openFile (j.file.take 40)).replay 8 (.derived 3) =
        .ok ([commitFrame 1 2], j') := by
  have hfits : ∀ journalTs head, Fits 8 (commitFrame journalTs head) := fun journalTs head =>
    ⟨by rw [length_commitFrame]; decide, by simp [commitFrame, Val.depth, Fields.depth]⟩
  have hrounds : Rounds 8 _ [commitFrame 1 2, commitFrame 3 4] :=
    (Rounds.create.append (commitFrame 1 2) (hfits _ _)).append (commitFrame 3 4) (hfits _ _)
  have hwhole : whole 40 [commitFrame 1 2, commitFrame 3 4] = [commitFrame 1 2] := by
    simp only [whole, length_frameBytes, length_commitFrame, framePrefixLen]
    rfl
  have hdamage : Damaged 8 ((Journal.create.writeFrame (commitFrame 1 2)).writeFrame
      (commitFrame 3 4)).file [commitFrame 1 2, commitFrame 3 4] _ _ := .cut 40
  rw [hwhole] at hdamage
  obtain ⟨j', hreplay, -⟩ := journal_replays_intact frameEnv_unitsSized frame_unitsSized hrounds hdamage
  exact ⟨frameEnv_unitsSized, _, hrounds, hdamage, j', hreplay⟩

-- A frame of exactly 2^32 bytes is written behind the length 0, and the replay drops
-- it.
theorem long_frame_lost :
    ∃ frame : Frame, ∃ j : Journal, j = Journal.create.writeFrame frame ∧
      (Journal.openFile j.file).replay 8 (.derived 3) =
        .ok (([] : List Frame), Journal.create) := by
  obtain ⟨frame, hlen⟩ : ∃ frame : Frame, (toWireChecked frame).length = 2 ^ 32 := by
    obtain ⟨bytes, hbytes⟩ : ∃ bytes : List UInt8, bytes.length = 2 ^ 32 - 38 :=
      ⟨List.replicate _ 0, List.length_replicate⟩
    exact ⟨batchFrame (putWrite 0 bytes), by rw [length_batchFrame, hbytes]; norm_num⟩
  have hhead : (frameBytes frame).take framePrefixLen = leBytes framePrefixLen (2 ^ 32) := by
    rw [frameBytes, hlen, List.take_left' (length_leBytes _ _)]
  have hzero : ofLeBytes ((frameBytes frame).take framePrefixLen) = 0 := by
    rw [hhead, ofLeBytes_leBytes]
    rfl
  have hno : NoFrame frameEnv 8 (.derived 3) (frameBytes frame) := by
    refine .inr (.inr ⟨.stop (.error .unexpectedEof), by decide, ?_⟩)
    rw [hzero]
    rfl
  have hread : (Journal.openFile (encodeAll ([] : List Frame) ++ frameBytes frame)).replay 8
      (.derived 3) = _ :=
    replay_openFile frameEnv_unitsSized frame_unitsSized
      (fun f hf => absurd hf List.not_mem_nil) hno
  have hfile : (Journal.create.writeFrame frame).file = frameBytes frame := by
    simp [Journal.writeFrame, Journal.create, writeAllAt]
  exact ⟨frame, _, rfl, by rw [hfile]; exact hread⟩

end Frames

end WaveDb.Storage.JournalBytes
