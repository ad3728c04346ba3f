import WaveDb.Lib.LittleEndian
import Mathlib

-- The reply body: length-prefixed frames, put together again from whatever
-- chunks the transport hands over.
namespace WaveDb.Net

open WaveDb.Lib

inductive TransportError
  | http (text : String)
  | bodyTooLarge (limit got : Nat)
  | io
  deriving DecidableEq, Repr

def maxBody : Nat := 16 * 1024 * 1024

def writeFrame (out bytes : List UInt8) : Except TransportError (List UInt8) :=
  if bytes.length < 2 ^ 32 then .ok (out ++ (leBytes 4 bytes.length ++ bytes))
  else .error (.http "frame too large")

def writeFrames (out : List UInt8) (frames : List (List UInt8)) : Except TransportError (List UInt8) :=
  frames.foldlM writeFrame out

-- The chunks still to come, what is left of those that came, and whether the
-- body has reported its end.
structure FrameReader where
  body : List (List UInt8)
  buf : List UInt8
  done : Bool

namespace FrameReader

def new (body : List (List UInt8)) : FrameReader := ⟨body, [], false⟩

def midFrame : TransportError := .http "connection closed mid-frame"

def ended (body : List (List UInt8)) (buf : List UInt8) : Except TransportError Bool × FrameReader :=
  (if buf.isEmpty then .ok false else .error midFrame, ⟨body, buf, true⟩)

def fillFrom (n : Nat) (done : Bool) (buf : List UInt8) :
    List (List UInt8) → Except TransportError Bool × FrameReader
  | [] => if n ≤ buf.length then (.ok true, ⟨[], buf, done⟩) else ended [] buf
  | chunk :: body =>
    if n ≤ buf.length then (.ok true, ⟨chunk :: body, buf, done⟩)
    else if done then ended (chunk :: body) buf
    else fillFrom n done (buf ++ chunk) body

def fill (r : FrameReader) (n : Nat) : Except TransportError Bool × FrameReader :=
  fillFrom n r.done r.buf r.body

def nextFrame (r : FrameReader) : Except TransportError (Option (List UInt8)) × FrameReader :=
  match r.fill 4 with
  | (.error e, r) => (.error e, r)
  | (.ok false, r) => (.ok none, r)
  | (.ok true, r) =>
    let len := ofLeBytes (r.buf.take 4)
    if maxBody < len then (.error (.bodyTooLarge maxBody len), r)
    else
      match r.fill (4 + len) with
      | (.error e, r) => (.error e, r)
      | (.ok false, r) => (.error midFrame, r)
      | (.ok true, r) =>
        let frame := r.buf.drop 4
        (.ok (some (frame.take len)), { r with buf := frame.drop len })

inductive Yields : FrameReader → List (List UInt8) → Option TransportError → Prop
  | clean {r r' : FrameReader} (h : r.nextFrame = (.ok none, r')) : Yields r [] none
  | error {r r' : FrameReader} {e : TransportError} (h : r.nextFrame = (.error e, r')) :
      Yields r [] (some e)
  | frame {r r' : FrameReader} {bytes : List UInt8} {frames : List (List UInt8)}
      {ending : Option TransportError} (h : r.nextFrame = (.ok (some bytes), r'))
      (rest : Yields r' frames ending) : Yields r (bytes :: frames) ending

def pending (r : FrameReader) : List UInt8 := r.buf ++ r.body.flatten

def Sound (r : FrameReader) : Prop := r.done = true → r.body = []

variable {n : Nat} {done : Bool} {buf : List UInt8} {body : List (List UInt8)} {r : FrameReader}

theorem fillFrom_cases (n : Nat) (done : Bool) (buf : List UInt8) (body : List (List UInt8))
    (hsound : done = true → body = []) :
    (∃ r, fillFrom n done buf body = (.ok true, r) ∧ r.pending = buf ++ body.flatten ∧
      n ≤ r.buf.length ∧ r.Sound) ∨
    ((buf ++ body.flatten).length < n ∧
      ∃ r, fillFrom n done buf body =
        (if (buf ++ body.flatten).isEmpty then .ok false else .error midFrame, r)) := by
  induction body generalizing buf with
  | nil =>
    rw [fillFrom, List.flatten_nil, List.append_nil]
    split
    · rename_i hle
      exact .inl ⟨_, rfl, List.append_nil _, hle, fun _ => rfl⟩
    · rename_i hlt
      exact .inr ⟨by omega, _, rfl⟩
  | cons chunk body ih =>
    rw [fillFrom]
    split
    · rename_i hle
      exact .inl ⟨_, rfl, rfl, hle, hsound⟩
    · cases done with
      | true => exact nomatch hsound rfl
      | false =>
        have hall := ih (buf ++ chunk) nofun
        rw [List.append_assoc] at hall
        exact hall

theorem fill_of_le (hsound : r.Sound) (hle : n ≤ r.pending.length) :
    ∃ r', r.fill n = (.ok true, r') ∧ r'.pending = r.pending ∧ n ≤ r'.buf.length ∧ r'.Sound := by
  rcases fillFrom_cases n r.done r.buf r.body hsound with h | ⟨hlt, -⟩
  · exact h
  · exact absurd hle (Nat.not_le.mpr hlt)

theorem fill_of_nil (hsound : r.Sound) (hn : 0 < n) (hnil : r.pending = []) :
    ∃ r', r.fill n = (.ok false, r') := by
  have hempty : r.buf ++ r.body.flatten = [] := hnil
  rcases fillFrom_cases n r.done r.buf r.body hsound with ⟨r', -, hpend, hlen, -⟩ | ⟨-, r', h⟩
  · rw [hempty] at hpend
    have hbuf : r'.buf = [] := (List.append_eq_nil_iff.mp hpend).1
    rw [hbuf, List.length_nil] at hlen
    omega
  · rw [hempty] at h
    exact ⟨r', h⟩

theorem fill_of_lt (hsound : r.Sound) (hlt : r.pending.length < n) (hne : r.pending ≠ []) :
    ∃ r', r.fill n = (.error midFrame, r') := by
  rcases fillFrom_cases n r.done r.buf r.body hsound with ⟨r', -, hpend, hlen, -⟩ | ⟨-, r', h⟩
  · have hle : r'.buf.length ≤ r.pending.length := by
      rw [pending, ← hpend, pending, List.length_append]
      omega
    omega
  · have hempty : (r.buf ++ r.body.flatten).isEmpty = false := by
      rw [List.isEmpty_eq_false_iff]
      exact hne
    rw [hempty] at h
    exact ⟨r', h⟩

end FrameReader

def framed (bytes : List UInt8) : List UInt8 := leBytes 4 bytes.length ++ bytes

theorem length_framed (bytes : List UInt8) : (framed bytes).length = 4 + bytes.length := by
  rw [framed, List.length_append, length_leBytes]

theorem writeFrames_eq {frames : List (List UInt8)} (hlimit : ∀ f ∈ frames, f.length ≤ maxBody)
    (out : List UInt8) : writeFrames out frames = .ok (out ++ frames.flatMap framed) := by
  induction frames generalizing out with
  | nil => rw [List.flatMap_nil, List.append_nil]; rfl
  | cons f frames ih =>
    have hf : f.length < 2 ^ 32 :=
      Nat.lt_of_le_of_lt (hlimit f List.mem_cons_self) (by decide)
    have hwrite : writeFrame out f = .ok (out ++ framed f) := if_pos hf
    rw [writeFrames, List.foldlM_cons, hwrite]
    change writeFrames (out ++ framed f) frames = _
    rw [ih fun g hg => hlimit g (List.mem_cons_of_mem _ hg), List.flatMap_cons, List.append_assoc]

namespace FrameReader

variable {r : FrameReader} {f after : List UInt8}

theorem nextFrame_nil (hsound : r.Sound) (hnil : r.pending = []) :
    ∃ r', r.nextFrame = (.ok none, r') := by
  obtain ⟨r', hfill⟩ := fill_of_nil hsound (by decide : 0 < 4) hnil
  exact ⟨r', by rw [nextFrame, hfill]⟩

theorem length_of_filled (hlimit : f.length ≤ maxBody) {tail : List UInt8} (hlen : 4 ≤ r.buf.length)
    (hpend : r.pending = leBytes 4 f.length ++ tail) : ofLeBytes (r.buf.take 4) = f.length := by
  have htake : r.buf.take 4 = leBytes 4 f.length := by
    rw [← List.take_append_of_le_length hlen, ← List.take_left' (length_leBytes 4 f.length)]
    exact congrArg (List.take 4) hpend
  rw [htake, ofLeBytes_leBytes_of_lt 4 _ (Nat.lt_of_le_of_lt hlimit (by decide))]

theorem nextFrame_framed (hsound : r.Sound) (hlimit : f.length ≤ maxBody)
    (hpend : r.pending = framed f ++ after) :
    ∃ r', r.nextFrame = (.ok (some f), r') ∧ r'.Sound ∧ r'.pending = after := by
  have hlen : r.pending.length = 4 + f.length + after.length := by
    rw [hpend, List.length_append, length_framed]
  obtain ⟨r₁, hfill₁, hpend₁, hbuf₁, hsound₁⟩ := fill_of_le hsound (by omega : 4 ≤ r.pending.length)
  obtain ⟨r₂, hfill₂, hpend₂, hbuf₂, hsound₂⟩ :=
    fill_of_le hsound₁ (by rw [hpend₁]; omega : 4 + f.length ≤ r₁.pending.length)
  have hall : r₂.buf ++ r₂.body.flatten = leBytes 4 f.length ++ (f ++ after) := by
    rw [← List.append_assoc]
    exact (hpend₂.trans hpend₁).trans hpend
  have hlength : ofLeBytes (r₁.buf.take 4) = f.length :=
    length_of_filled hlimit hbuf₁ (by rw [hpend₁, hpend, framed, List.append_assoc])
  have hfour : 4 ≤ r₂.buf.length := by omega
  have hdrop : r₂.buf.drop 4 ++ r₂.body.flatten = f ++ after := by
    rw [← List.drop_append_of_le_length hfour, hall, List.drop_left' (length_leBytes 4 f.length)]
  have hle : f.length ≤ (r₂.buf.drop 4).length := by
    rw [List.length_drop]
    omega
  have hframe : (r₂.buf.drop 4).take f.length = f := by
    rw [← List.take_append_of_le_length hle, hdrop, List.take_left]
  refine ⟨{ r₂ with buf := (r₂.buf.drop 4).drop f.length }, ?_, hsound₂, ?_⟩
  · rw [nextFrame, hfill₁]
    simp only [hlength, if_neg (Nat.not_lt.mpr hlimit), hfill₂, hframe]
  · change (r₂.buf.drop 4).drop f.length ++ r₂.body.flatten = after
    rw [← List.drop_append_of_le_length hle, hdrop, List.drop_left]

theorem nextFrame_cut (hsound : r.Sound) (hlimit : f.length ≤ maxBody) {m : Nat} (hm : 0 < m)
    (hcut : m < (framed f).length) (hpend : r.pending = (framed f).take m) :
    ∃ r', r.nextFrame = (.error midFrame, r') := by
  rw [length_framed] at hcut
  have hlen : r.pending.length = m := by
    rw [hpend, List.length_take, length_framed]
    omega
  have hne : r.pending ≠ [] := List.ne_nil_of_length_pos (by omega)
  by_cases hfour : 4 ≤ m
  · obtain ⟨r₁, hfill₁, hpend₁, hbuf₁, hsound₁⟩ := fill_of_le hsound (by omega : 4 ≤ r.pending.length)
    have hpre : r₁.pending = leBytes 4 f.length ++ f.take (m - 4) := by
      rw [hpend₁, hpend, framed, List.take_append, length_leBytes,
        List.take_of_length_le (by rw [length_leBytes]; exact hfour)]
    obtain ⟨r₂, hfill₂⟩ := fill_of_lt hsound₁ (by rw [hpend₁]; omega : r₁.pending.length < 4 + f.length)
      (hpend₁ ▸ hne)
    refine ⟨r₂, ?_⟩
    rw [nextFrame, hfill₁]
    simp only [length_of_filled hlimit hbuf₁ hpre, if_neg (Nat.not_lt.mpr hlimit), hfill₂]
  · obtain ⟨r₁, hfill₁⟩ := fill_of_lt hsound (by omega : r.pending.length < 4) hne
    exact ⟨r₁, by rw [nextFrame, hfill₁]⟩

variable (after) in
theorem Yields.append {frames : List (List UInt8)} {ending : Option TransportError}
    (hlimit : ∀ f ∈ frames, f.length ≤ maxBody) (hsound : r.Sound)
    (hpend : r.pending = frames.flatMap framed ++ after)
    (hrest : ∀ r' : FrameReader, r'.Sound → r'.pending = after → Yields r' [] ending) :
    Yields r frames ending := by
  induction frames generalizing r with
  | nil => exact hrest r hsound hpend
  | cons f frames ih =>
    rw [List.flatMap_cons, List.append_assoc] at hpend
    obtain ⟨r', hnext, hsound', hpend'⟩ := nextFrame_framed hsound (hlimit f List.mem_cons_self) hpend
    exact .frame hnext (ih (fun g hg => hlimit g (List.mem_cons_of_mem _ hg)) hsound' hpend')

theorem sound_new (chunks : List (List UInt8)) : (new chunks).Sound := nofun

theorem pending_new (chunks : List (List UInt8)) : (new chunks).pending = chunks.flatten := rfl

end FrameReader

theorem exists_cut (frames : List (List UInt8)) {cut : Nat} (hcut : cut ≤ (frames.flatMap framed).length) :
    (∃ k, ((frames.take k).flatMap framed).length = cut) ∨
    ∃ k f m, frames[k]? = some f ∧ 0 < m ∧ m < (framed f).length ∧
      ((frames.take k).flatMap framed).length + m = cut ∧
      (frames.flatMap framed).take cut = (frames.take k).flatMap framed ++ (framed f).take m := by
  induction frames generalizing cut with
  | nil => exact .inl ⟨0, (Nat.le_zero.mp hcut).symm⟩
  | cons f frames ih =>
    rw [List.flatMap_cons, List.length_append] at hcut
    by_cases hzero : cut = 0
    · exact .inl ⟨0, hzero.symm⟩
    by_cases hin : cut < (framed f).length
    · refine .inr ⟨0, f, cut, rfl, Nat.pos_of_ne_zero hzero, hin, Nat.zero_add cut, ?_⟩
      rw [List.flatMap_cons, List.take_append_of_le_length (Nat.le_of_lt hin)]
      rfl
    · have hsplit : (framed f).length + (cut - (framed f).length) = cut := by omega
      rcases ih (by omega : cut - (framed f).length ≤ _) with ⟨k, hk⟩ | ⟨k, g, m, hg, hm, hlt, hk, htake⟩
      · refine .inl ⟨k + 1, ?_⟩
        rw [List.take_succ_cons, List.flatMap_cons, List.length_append, hk, hsplit]
      · refine .inr ⟨k + 1, g, m, hg, hm, hlt, ?_, ?_⟩
        · rw [List.take_succ_cons, List.flatMap_cons, List.length_append, Nat.add_assoc, hk, hsplit]
        · rw [List.take_succ_cons, List.flatMap_cons, List.flatMap_cons, List.append_assoc, ← htake,
            List.take_append, List.take_of_length_le (by omega)]

-- However the bytes are cut, the frames come back. When the stream breaks off inside a
-- frame, those before it come back and then an error.
theorem reply_frames_survive {frames : List (List UInt8)} (hlimit : ∀ f ∈ frames, f.length ≤ maxBody)
    {stream : List UInt8} (hwritten : writeFrames [] frames = .ok stream) :
    (∀ chunks : List (List UInt8), chunks.flatten = stream →
      FrameReader.Yields (.new chunks) frames none) ∧
    ∀ (cut : Nat) (chunks : List (List UInt8)), cut ≤ stream.length → chunks.flatten = stream.take cut →
      (∀ k, writeFrames [] (frames.take k) ≠ .ok (stream.take cut)) →
      ∃ k whole next, k < frames.length ∧ writeFrames [] (frames.take k) = .ok whole ∧
        writeFrames [] (frames.take (k + 1)) = .ok next ∧ whole.length < cut ∧ cut < next.length ∧
        FrameReader.Yields (.new chunks) (frames.take k) (some FrameReader.midFrame) := by
  have hstream : frames.flatMap framed = stream :=
    Except.ok.inj ((writeFrames_eq hlimit []).symm.trans hwritten)
  have htake : ∀ k, writeFrames [] (frames.take k) = .ok ((frames.take k).flatMap framed) := fun k =>
    writeFrames_eq (fun f hf => hlimit f (List.mem_of_mem_take hf)) []
  subst hstream
  constructor
  · intro chunks hchunks
    refine FrameReader.Yields.append [] hlimit (FrameReader.sound_new chunks) ?_ ?_
    · rw [FrameReader.pending_new, hchunks, List.append_nil]
    · intro r hsound hnil
      obtain ⟨r', hnext⟩ := FrameReader.nextFrame_nil hsound hnil
      exact .clean hnext
  · intro cut chunks hcut hchunks hinside
    rcases exists_cut frames hcut with ⟨k, hk⟩ | ⟨k, f, m, hf, hm, hlt, hk, hpre⟩
    · refine absurd (htake k) ?_
      have hwhole : (frames.flatMap framed).take cut = (frames.take k).flatMap framed := by
        conv_lhs => rw [← List.take_append_drop k frames, List.flatMap_append]
        rw [← hk, List.take_left]
      rw [← hwhole]
      exact hinside k
    · obtain ⟨hlen, hget⟩ := List.getElem?_eq_some_iff.mp hf
      have hmem : f ∈ frames := List.mem_of_getElem? hf
      refine ⟨k, _, _, hlen, htake k, htake (k + 1), by omega, ?_, ?_⟩
      · rw [List.take_add_one, hf, List.flatMap_append, List.length_append]
        simp only [Option.toList_some, List.flatMap_singleton]
        omega
      · refine FrameReader.Yields.append _ (fun g hg => hlimit g (List.mem_of_mem_take hg))
          (FrameReader.sound_new chunks) (hchunks.trans hpre) ?_
        intro r hsound hpend
        obtain ⟨r', hnext⟩ := FrameReader.nextFrame_cut hsound (hlimit f hmem) hm hlt hpend
        exact .error hnext

theorem reply_frames_survive_sample : writeFrames [] [[7], []] = .ok [1, 0, 0, 0, 7, 0, 0, 0, 0] ∧
    FrameReader.Yields (.new [[1, 0], [], [0, 0, 7, 0, 0], [0, 0]]) [[7], []] none := by
  have hwritten : writeFrames [] [[7], []] = .ok [1, 0, 0, 0, 7, 0, 0, 0, 0] := by decide
  exact ⟨hwritten, (reply_frames_survive (by decide) hwritten).1 _ (by decide)⟩

end WaveDb.Net
