import WaveDb.Lib.BigEndian
import WaveDb.Lib.Chunks
import WaveDb.Net.Frames

-- WebSocket framing: binary messages that may come in fragments, with control
-- frames anywhere between.
namespace WaveDb.Net

open WaveDb.Lib

def maxMessage : Nat := 16 * 1024 * 1024

inductive Opcode
  | continuation
  | binary
  | close
  | ping
  | pong
  deriving DecidableEq, Repr

def Opcode.code : Opcode → UInt8
  | .continuation => 0x0
  | .binary => 0x2
  | .close => 0x8
  | .ping => 0x9
  | .pong => 0xA

def opText : UInt8 := 0x1

def len16 : UInt8 := 0x7E

def len64 : UInt8 := 0x7F

inductive Msg
  | binary (payload : List UInt8)
  | ping (payload : List UInt8)
  | pong (payload : List UInt8)
  | close
  deriving DecidableEq, Repr

def applyMask (key payload : List UInt8) : List UInt8 :=
  payload.mapIdx fun i b => b ^^^ key.getD (i % 4) 0

-- The bytes of one unfragmented frame. A client draws a fresh key for each.
def writeMessage (op : Opcode) (payload : List UInt8) (key : Option (List UInt8)) :
    Except TransportError (List UInt8) :=
  let maskBit : UInt8 := if key.isSome then 0x80 else 0x00
  let body (head : List UInt8) : List UInt8 :=
    match key with
    | some key => head ++ (key ++ applyMask key payload)
    | none => head ++ payload
  if payload.length ≤ 125 then
    .ok (body [0x80 ||| op.code, maskBit ||| UInt8.ofNat payload.length])
  else if payload.length < 2 ^ 16 then
    .ok (body ([0x80 ||| op.code, maskBit ||| len16] ++ beBytes 2 payload.length))
  else if payload.length < 2 ^ 64 then
    .ok (body ([0x80 ||| op.code, maskBit ||| len64] ++ beBytes 8 payload.length))
  else .error (.http "ws frame too large")

section Reader

def exactly (n : Nat) (r : List (List UInt8)) : Except TransportError (List UInt8 × List (List UInt8)) :=
  match readExact n r with
  | some got => .ok got
  | none => .error .io

def declaredLength (short : UInt8) (r : List (List UInt8)) :
    Except TransportError (Nat × List (List UInt8)) :=
  if short = len16 then do
    let (n, r) ← exactly 2 r
    return (ofBeBytes n, r)
  else if short = len64 then do
    let (n, r) ← exactly 8 r
    return (ofBeBytes n, r)
  else return (short.toNat, r)

def maskKey (masked : Bool) (r : List (List UInt8)) :
    Except TransportError (Option (List UInt8) × List (List UInt8)) :=
  if masked then do
    let (key, r) ← exactly 4 r
    return (some key, r)
  else return (none, r)

def frameRest (requireMasked : Bool) (b0 : UInt8) (r : List (List UInt8)) :
    Except TransportError ((Bool × UInt8 × List UInt8) × List (List UInt8)) := do
  let (second, r) ← exactly 1 r
  let b1 := second.headD 0
  let masked : Bool := b1 &&& 0x80 != 0
  if requireMasked && !masked then .error (.http "unmasked client frame")
  else
    let (len, r) ← declaredLength (b1 &&& 0x7F) r
    if maxMessage < len then .error (.http "ws frame too large")
    else
      let (key, r) ← maskKey masked r
      let (payload, r) ← exactly len r
      let payload := match key with
        | some key => applyMask key payload
        | none => payload
      return ((b0 &&& 0x80 != 0, b0 &&& 0x0F, payload), r)

-- `none` is the end of the stream between frames.
def frame (requireMasked : Bool) (r : List (List UInt8)) :
    Except TransportError (Option ((Bool × UInt8 × List UInt8) × List (List UInt8))) :=
  match readSome 1 r with
  | ([], _) => .ok none
  | (b0 :: _, r) =>
    if b0 &&& 0x70 ≠ 0 then .error (.http "ws reserved bits set")
    else do
      let read ← frameRest requireMasked b0 r
      return some read

structure Messages where
  r : List (List UInt8)
  sofar : Option (List UInt8)

inductive Taken
  | message (msg : Msg) (sofar : Option (List UInt8))
  | more (sofar : List UInt8)

def takeFrame (sofar : Option (List UInt8)) (fin : Bool) (opcode : UInt8) (payload : List UInt8) :
    Except TransportError Taken :=
  if opcode = Opcode.binary.code then
    match sofar with
    | some _ => .error (.http "ws data frame mid-message")
    | none => .ok (if fin then .message (.binary payload) none else .more payload)
  else if opcode = Opcode.continuation.code then
    match sofar with
    | none => .error (.http "ws stray continuation")
    | some sofar =>
      if maxMessage < sofar.length + payload.length then .error (.http "ws frame too large")
      else .ok (if fin then .message (.binary (sofar ++ payload)) none else .more (sofar ++ payload))
  else if opcode = Opcode.ping.code then .ok (.message (.ping payload) sofar)
  else if opcode = Opcode.pong.code then .ok (.message (.pong payload) sofar)
  else if opcode = Opcode.close.code then .ok (.message .close sofar)
  else if opcode = opText then .error (.http "ws text frame")
  else .error (.http "ws unknown opcode")

def Shrinks {α : Type} (r : List (List UInt8)) (x : Except TransportError (α × List (List UInt8))) : Prop :=
  ∀ a r', x = .ok (a, r') → r'.flatten.length ≤ r.flatten.length

theorem Shrinks.bind {α β : Type} {r : List (List UInt8)}
    {x : Except TransportError (α × List (List UInt8))}
    {f : α × List (List UInt8) → Except TransportError (β × List (List UInt8))} (hx : Shrinks r x)
    (hf : ∀ a r', Shrinks r' (f (a, r'))) : Shrinks r (x >>= f) := by
  intro b r'' h
  cases x with
  | error e => exact nomatch h
  | ok got =>
    obtain ⟨a, r'⟩ := got
    exact (hf a r' b r'' h).trans (hx a r' rfl)

theorem shrinks_ok {α : Type} (a : α) (r : List (List UInt8)) : Shrinks r (.ok (a, r)) := by
  rintro _ _ ⟨⟩
  exact Nat.le_refl _

theorem shrinks_error {α : Type} (e : TransportError) (r : List (List UInt8)) :
    Shrinks (α := α) r (.error e) := nofun

theorem shrinks_exactly (n : Nat) (r : List (List UInt8)) : Shrinks r (exactly n r) := by
  intro bytes r' h
  rw [exactly] at h
  split at h
  · rename_i got hread
    cases h
    rw [← (readExact_eq_some hread).2, List.length_append]
    omega
  · exact nomatch h

theorem shrinks_declaredLength (short : UInt8) (r : List (List UInt8)) :
    Shrinks r (declaredLength short r) := by
  rw [declaredLength]
  split
  · exact (shrinks_exactly 2 r).bind fun n r' => shrinks_ok _ r'
  · split
    · exact (shrinks_exactly 8 r).bind fun n r' => shrinks_ok _ r'
    · exact shrinks_ok _ r

theorem shrinks_maskKey (masked : Bool) (r : List (List UInt8)) : Shrinks r (maskKey masked r) := by
  rw [maskKey]
  split
  · exact (shrinks_exactly 4 r).bind fun key r' => shrinks_ok _ r'
  · exact shrinks_ok _ r

theorem shrinks_frameRest (requireMasked : Bool) (b0 : UInt8) (r : List (List UInt8)) :
    Shrinks r (frameRest requireMasked b0 r) := by
  refine (shrinks_exactly 1 r).bind fun second r => ?_
  dsimp only
  split
  · exact shrinks_error _ r
  · refine (shrinks_declaredLength _ r).bind fun len r => ?_
    dsimp only
    split
    · exact shrinks_error _ r
    · exact (shrinks_maskKey _ r).bind fun key r =>
        (shrinks_exactly len r).bind fun payload r => shrinks_ok _ r

theorem frame_lt {requireMasked : Bool} {r r' : List (List UInt8)} {got : Bool × UInt8 × List UInt8}
    (h : frame requireMasked r = .ok (some (got, r'))) : r'.flatten.length < r.flatten.length := by
  rw [frame] at h
  have hflat := readSome_flatten 1 r
  split at h
  · exact nomatch h
  · rename_i b0 rest r₁ hread
    rw [hread] at hflat
    dsimp only at hflat
    split at h
    · exact nomatch h
    · have hrest := shrinks_frameRest requireMasked b0 r₁
      cases hbody : frameRest requireMasked b0 r₁ with
      | error e =>
        rw [hbody] at h
        exact nomatch h
      | ok read =>
        rw [hbody] at h
        cases h
        have hle := hrest got r' hbody
        rw [← hflat, List.length_append, List.length_cons]
        omega

-- The next message. Control frames surface at once, whatever is under way.
def Messages.next (requireMasked : Bool) (m : Messages) :
    Except TransportError (Option (Msg × Messages)) :=
  match hframe : frame requireMasked m.r with
  | .error e => .error e
  | .ok none => .ok none
  | .ok (some ((fin, opcode, payload), r)) =>
    match takeFrame m.sofar fin opcode payload with
    | .error e => .error e
    | .ok (.message msg sofar) => .ok (some (msg, ⟨r, sofar⟩))
    | .ok (.more sofar) => Messages.next requireMasked ⟨r, some sofar⟩
termination_by m.r.flatten.length
decreasing_by exact frame_lt hframe

inductive Messages.Yields (requireMasked : Bool) : Messages → List Msg → Option TransportError → Prop
  | clean {m : Messages} (h : m.next requireMasked = .ok none) : Yields requireMasked m [] none
  | error {m : Messages} {e : TransportError} (h : m.next requireMasked = .error e) :
      Yields requireMasked m [] (some e)
  | message {m m' : Messages} {msg : Msg} {msgs : List Msg} {ending : Option TransportError}
      (h : m.next requireMasked = .ok (some (msg, m'))) (rest : Yields requireMasked m' msgs ending) :
      Yields requireMasked m (msg :: msgs) ending

end Reader

section Framing

inductive LengthForm
  | seven
  | sixteen
  | sixtyFour
  deriving DecidableEq, Repr

def LengthForm.limit : LengthForm → Nat
  | .seven => 126
  | .sixteen => 2 ^ 16
  | .sixtyFour => 2 ^ 64

def LengthForm.short (len : Nat) : LengthForm → UInt8
  | .seven => UInt8.ofNat len
  | .sixteen => len16
  | .sixtyFour => len64

def LengthForm.extended (len : Nat) : LengthForm → List UInt8
  | .seven => []
  | .sixteen => beBytes 2 len
  | .sixtyFour => beBytes 8 len

-- A frame's payload with its sender's choices: a mask or none, and the form of
-- the length.
structure Piece where
  payload : List UInt8
  key : Option (List UInt8)
  form : LengthForm
  fits : payload.length < form.limit
  key_length : ∀ k, key = some k → k.length = 4

def Piece.body (p : Piece) : List UInt8 :=
  match p.key with
  | some key => key ++ applyMask key p.payload
  | none => p.payload

def Piece.encode (p : Piece) (fin : Bool) (op : Opcode) : List UInt8 :=
  (((if fin then 0x80 else 0x00) ||| op.code) ::
    ((if p.key.isSome then 0x80 else 0x00) ||| p.form.short p.payload.length) ::
    p.form.extended p.payload.length) ++ p.body

theorem applyMask_applyMask (key payload : List UInt8) : applyMask key (applyMask key payload) = payload := by
  refine List.ext_getElem (by simp [applyMask]) fun i _ _ => ?_
  simp only [applyMask, List.getElem_mapIdx]
  rw [UInt8.xor_assoc, UInt8.xor_self, UInt8.xor_zero]

theorem length_applyMask (key payload : List UInt8) : (applyMask key payload).length = payload.length :=
  List.length_mapIdx

variable {r : List (List UInt8)} {after : List UInt8}

theorem exactly_append {bytes : List UInt8} {n : Nat} (h : r.flatten = bytes ++ after)
    (hlen : bytes.length = n) : ∃ r', exactly n r = .ok (bytes, r') ∧ r'.flatten = after := by
  obtain ⟨r', hread, hrest⟩ := readExact_append h hlen
  exact ⟨r', by rw [exactly, hread], hrest⟩

theorem short_lt (p : Piece) : (p.form.short p.payload.length).toNat < 128 := by
  have hfits := p.fits
  cases hform : p.form with
  | seven =>
    rw [hform] at hfits
    change (UInt8.ofNat p.payload.length).toNat < 128
    rw [UInt8.toNat_ofNat_of_lt' (Nat.lt_trans hfits (by decide))]
    exact Nat.lt_trans hfits (by decide)
  | sixteen => exact (by decide : len16.toNat < 128)
  | sixtyFour => exact (by decide : len64.toNat < 128)

theorem second_byte : ∀ n < 128, ∀ masked : Bool,
    (((if masked then 0x80 else 0x00) ||| UInt8.ofNat n) &&& 0x80 != 0) = masked ∧
    ((if masked then 0x80 else 0x00) ||| UInt8.ofNat n) &&& 0x7F = UInt8.ofNat n := by
  decide

theorem first_byte (fin : Bool) (op : Opcode) :
    ((if fin then 0x80 else 0x00) ||| op.code) &&& 0x70 = 0 ∧
    (((if fin then 0x80 else 0x00) ||| op.code) &&& 0x80 != 0) = fin ∧
    ((if fin then 0x80 else 0x00) ||| op.code) &&& 0x0F = op.code := by
  cases fin <;> cases op <;> decide

theorem declaredLength_eq (p : Piece) (h : r.flatten = p.form.extended p.payload.length ++ after) :
    ∃ r', declaredLength (p.form.short p.payload.length) r = .ok (p.payload.length, r') ∧
      r'.flatten = after := by
  have hfits := p.fits
  cases hform : p.form with
  | seven =>
    rw [hform] at h hfits
    have hlt : p.payload.length < 126 := hfits
    have hnat : (UInt8.ofNat p.payload.length).toNat = p.payload.length :=
      UInt8.toNat_ofNat_of_lt' (Nat.lt_trans hlt (by decide))
    have hne16 : UInt8.ofNat p.payload.length ≠ len16 := fun heq => by
      have hval : (len16).toNat = 126 := rfl
      rw [← heq, hnat] at hval
      omega
    have hne64 : UInt8.ofNat p.payload.length ≠ len64 := fun heq => by
      have hval : (len64).toNat = 127 := rfl
      rw [← heq, hnat] at hval
      omega
    refine ⟨r, ?_, h⟩
    rw [LengthForm.short, declaredLength, if_neg hne16, if_neg hne64, hnat]
    rfl
  | sixteen =>
    rw [hform] at h hfits
    obtain ⟨r', hread, hrest⟩ := exactly_append h (length_beBytes 2 _)
    refine ⟨r', ?_, hrest⟩
    rw [LengthForm.short, declaredLength, if_pos rfl, hread]
    change Except.ok (ofBeBytes (beBytes 2 p.payload.length), r') = _
    rw [ofBeBytes_beBytes hfits]
  | sixtyFour =>
    rw [hform] at h hfits
    obtain ⟨r', hread, hrest⟩ := exactly_append h (length_beBytes 8 _)
    refine ⟨r', ?_, hrest⟩
    rw [LengthForm.short, declaredLength, if_neg (by decide), if_pos rfl, hread]
    change Except.ok (ofBeBytes (beBytes 8 p.payload.length), r') = _
    rw [ofBeBytes_beBytes hfits]

theorem maskKey_eq (p : Piece) (h : r.flatten = p.body ++ after) :
    ∃ r' bytes, maskKey p.key.isSome r = .ok (p.key, r') ∧ r'.flatten = bytes ++ after ∧
      bytes.length = p.payload.length ∧
      (match p.key with
        | some key => applyMask key bytes
        | none => bytes) = p.payload := by
  rw [Piece.body] at h
  cases hkey : p.key with
  | none =>
    rw [hkey] at h
    exact ⟨r, p.payload, rfl, h, rfl, rfl⟩
  | some key =>
    rw [hkey] at h
    dsimp only at h
    rw [List.append_assoc] at h
    obtain ⟨r', hread, hrest⟩ := exactly_append h (p.key_length key hkey)
    refine ⟨r', applyMask key p.payload, ?_, hrest, length_applyMask key p.payload,
      applyMask_applyMask key p.payload⟩
    rw [maskKey, Option.isSome_some, if_pos rfl, hread]
    rfl

-- After the first byte of a piece's frame: the payload, unless it is too long.
theorem frameRest_piece {requireMasked : Bool} (p : Piece)
    (hmask : requireMasked = true → p.key.isSome = true) (b0 : UInt8)
    (h : r.flatten = ((if p.key.isSome then 0x80 else 0x00) ||| p.form.short p.payload.length) ::
      p.form.extended p.payload.length ++ p.body ++ after) :
    if p.payload.length ≤ maxMessage then
      ∃ r', frameRest requireMasked b0 r = .ok ((b0 &&& 0x80 != 0, b0 &&& 0x0F, p.payload), r') ∧
        r'.flatten = after
    else frameRest requireMasked b0 r = .error (.http "ws frame too large") := by
  have hsplit : r.flatten = [(if p.key.isSome then 0x80 else 0x00) ||| p.form.short p.payload.length] ++
      (p.form.extended p.payload.length ++ (p.body ++ after)) := by
    rw [h, List.singleton_append, List.cons_append, List.cons_append, List.append_assoc]
  obtain ⟨r₁, hsecond, h₁⟩ := exactly_append (n := 1) hsplit rfl
  obtain ⟨r₂, hlength, h₂⟩ := declaredLength_eq p h₁
  obtain ⟨r₃, bytes, hkey, h₃, hbytes, hunmask⟩ := maskKey_eq p h₂
  obtain ⟨r₄, hpayload, h₄⟩ := exactly_append h₃ hbytes
  have hbits := second_byte _ (short_lt p) p.key.isSome
  rw [UInt8.ofNat_toNat] at hbits
  have hallowed : (requireMasked && !p.key.isSome) = false := by
    cases requireMasked with
    | false => rfl
    | true => rw [hmask rfl]; rfl
  rw [frameRest, hsecond]
  simp only [bind, Except.bind, List.headD_cons, hbits.1, hbits.2, hallowed, Bool.false_eq_true,
    if_false, hlength]
  by_cases hlong : p.payload.length ≤ maxMessage
  · rw [if_pos hlong]
    refine ⟨r₄, ?_, h₄⟩
    rw [if_neg (Nat.not_lt.mpr hlong), hkey]
    dsimp only
    rw [hpayload]
    dsimp only
    rw [hunmask]
    rfl
  · rw [if_neg hlong, if_pos (Nat.not_le.mp hlong)]

variable {requireMasked fin : Bool} {op : Opcode}

theorem frame_piece (p : Piece) (hmask : requireMasked = true → p.key.isSome = true)
    (h : r.flatten = p.encode fin op ++ after) (hlen : p.payload.length ≤ maxMessage) :
    ∃ r', frame requireMasked r = .ok (some ((fin, op.code, p.payload), r')) ∧ r'.flatten = after := by
  obtain ⟨r₁, hfirst, h₁⟩ := readSome_one (h.trans (by rw [Piece.encode, List.cons_append, List.cons_append]))
  obtain ⟨hreserved, hfin, hop⟩ := first_byte fin op
  have hrest := frameRest_piece p hmask ((if fin then 0x80 else 0x00) ||| op.code) h₁
  rw [if_pos hlen, hfin, hop] at hrest
  obtain ⟨r₂, hread, h₂⟩ := hrest
  refine ⟨r₂, ?_, h₂⟩
  rw [frame, hfirst]
  dsimp only
  rw [if_neg (by rw [hreserved]; exact not_not.mpr rfl), hread]
  rfl

theorem frame_long (p : Piece) (hmask : requireMasked = true → p.key.isSome = true)
    (h : r.flatten = p.encode fin op ++ after) (hlen : maxMessage < p.payload.length) :
    frame requireMasked r = .error (.http "ws frame too large") := by
  obtain ⟨r₁, hfirst, h₁⟩ := readSome_one (h.trans (by rw [Piece.encode, List.cons_append, List.cons_append]))
  obtain ⟨hreserved, -, -⟩ := first_byte fin op
  have hrest := frameRest_piece p hmask ((if fin then 0x80 else 0x00) ||| op.code) h₁
  rw [if_neg (Nat.not_le.mpr hlen)] at hrest
  rw [frame, hfirst]
  dsimp only
  rw [if_neg (by rw [hreserved]; exact not_not.mpr rfl), hrest]
  rfl

theorem frame_end (requireMasked : Bool) (h : r.flatten = []) : frame requireMasked r = .ok none := by
  rw [frame]
  have hnil := (readSome_eq_nil_iff Nat.one_pos r).mpr h
  generalize readSome 1 r = got at hnil
  obtain ⟨bytes, rest⟩ := got
  obtain rfl : bytes = [] := hnil
  rfl

end Framing

section Next

variable {requireMasked fin : Bool} {m : Messages} {opcode : UInt8} {payload : List UInt8}
  {r : List (List UInt8)}

theorem next_end (h : frame requireMasked m.r = .ok none) : m.next requireMasked = .ok none := by
  rw [Messages.next]
  split
  · rename_i e hframe
    exact nomatch hframe.symm.trans h
  · rfl
  · rename_i hframe
    exact nomatch hframe.symm.trans h

theorem next_error {e : TransportError} (h : frame requireMasked m.r = .error e) :
    m.next requireMasked = .error e := by
  rw [Messages.next]
  split
  · rename_i e' hframe
    exact congrArg _ (Except.error.inj (hframe.symm.trans h))
  · rename_i hframe
    exact nomatch hframe.symm.trans h
  · rename_i hframe
    exact nomatch hframe.symm.trans h

theorem next_frame (h : frame requireMasked m.r = .ok (some ((fin, opcode, payload), r))) :
    m.next requireMasked = match takeFrame m.sofar fin opcode payload with
      | .error e => .error e
      | .ok (.message msg sofar) => .ok (some (msg, ⟨r, sofar⟩))
      | .ok (.more sofar) => Messages.next requireMasked ⟨r, some sofar⟩ := by
  rw [Messages.next]
  split
  · rename_i hframe
    exact nomatch hframe.symm.trans h
  · rename_i hframe
    exact nomatch hframe.symm.trans h
  · rename_i hframe
    cases hframe.symm.trans h
    rfl

theorem Messages.Yields.of_next_eq {m m' : Messages} (h : m.next requireMasked = m'.next requireMasked)
    {msgs : List Msg} {ending : Option TransportError} (hy : Messages.Yields requireMasked m' msgs ending) :
    Messages.Yields requireMasked m msgs ending := by
  cases hy with
  | clean hn => exact .clean (h.trans hn)
  | error hn => exact .error (h.trans hn)
  | message hn rest => exact .message (h.trans hn) rest

end Next

section Streams

inductive ControlOp
  | close
  | ping
  | pong

def ControlOp.opcode : ControlOp → Opcode
  | .close => .close
  | .ping => .ping
  | .pong => .pong

def ControlOp.msg (payload : List UInt8) : ControlOp → Msg
  | .close => .close
  | .ping => .ping payload
  | .pong => .pong payload

structure Control where
  op : ControlOp
  piece : Piece

def Control.encode (c : Control) : List UInt8 := c.piece.encode true c.op.opcode

def Control.msg (c : Control) : Msg := c.op.msg c.piece.payload

structure Later where
  controls : List Control
  piece : Piece

inductive Item
  | control (c : Control)
  | binary (first : Piece) (rest : List Later)

def encodeLater : List Later → List UInt8
  | [] => []
  | l :: rest => l.controls.flatMap Control.encode ++
      (l.piece.encode rest.isEmpty .continuation ++ encodeLater rest)

def Item.encode : Item → List UInt8
  | .control c => c.encode
  | .binary first rest => first.encode rest.isEmpty .binary ++ encodeLater rest

def joined (first : Piece) (rest : List Later) : List UInt8 :=
  first.payload ++ rest.flatMap fun l => l.piece.payload

def laterControls (rest : List Later) : List Msg := rest.flatMap fun l => l.controls.map Control.msg

def Item.msgs : Item → List Msg
  | .control c => [c.msg]
  | .binary first rest => laterControls rest ++ [.binary (joined first rest)]

variable (requireMasked : Bool)

def Piece.Allowed (p : Piece) : Prop := requireMasked = true → p.key.isSome = true

def Control.Allowed (c : Control) : Prop :=
  c.piece.Allowed requireMasked ∧ c.piece.payload.length ≤ maxMessage

def Later.Allowed (l : Later) : Prop :=
  (∀ c ∈ l.controls, c.Allowed requireMasked) ∧ l.piece.Allowed requireMasked

def Item.Allowed : Item → Prop
  | .control c => c.Allowed requireMasked
  | .binary first rest => first.Allowed requireMasked ∧ ∀ l ∈ rest, l.Allowed requireMasked

def Item.Short : Item → Prop
  | .control _ => True
  | .binary first rest => (joined first rest).length ≤ maxMessage

variable {requireMasked} {r : List (List UInt8)} {after : List UInt8} {sofar : Option (List UInt8)}
  {msgs : List Msg} {ending : Option TransportError}

theorem takeFrame_control (sofar : Option (List UInt8)) (op : ControlOp) (payload : List UInt8) :
    takeFrame sofar true op.opcode.code payload = .ok (.message (op.msg payload) sofar) := by
  cases op <;> rfl

theorem yields_control {c : Control} (hc : c.Allowed requireMasked)
    (h : r.flatten = c.encode ++ after)
    (hrest : ∀ r', r'.flatten = after → Messages.Yields requireMasked ⟨r', sofar⟩ msgs ending) :
    Messages.Yields requireMasked ⟨r, sofar⟩ (c.msg :: msgs) ending := by
  obtain ⟨r', hframe, hafter⟩ := frame_piece c.piece hc.1 h hc.2
  refine .message ?_ (hrest r' hafter)
  rw [next_frame (m := ⟨r, sofar⟩) hframe, takeFrame_control]
  rfl

theorem yields_controls {controls : List Control} (hc : ∀ c ∈ controls, c.Allowed requireMasked)
    (h : r.flatten = controls.flatMap Control.encode ++ after)
    (hrest : ∀ r', r'.flatten = after → Messages.Yields requireMasked ⟨r', sofar⟩ msgs ending) :
    Messages.Yields requireMasked ⟨r, sofar⟩ (controls.map Control.msg ++ msgs) ending := by
  induction controls generalizing r with
  | nil => exact hrest r h
  | cons c controls ih =>
    rw [List.flatMap_cons, List.append_assoc] at h
    exact yields_control (hc c List.mem_cons_self) h fun r' hr' =>
      ih (fun d hd => hc d (List.mem_cons_of_mem _ hd)) hr'

def tooLarge : TransportError := .http "ws frame too large"

theorem takeFrame_later {got payload : List UInt8} (fin : Bool)
    (h : got.length + payload.length ≤ maxMessage) :
    takeFrame (some got) fin Opcode.continuation.code payload =
      .ok (if fin then .message (.binary (got ++ payload)) none else .more (got ++ payload)) := by
  rw [takeFrame, if_neg (by decide), if_pos rfl]
  exact if_neg (Nat.not_lt.mpr h)

-- The induction is on the fragments still to come, with what has come in `got`.
theorem yields_later {rest : List Later} {got : List UInt8} (hne : rest ≠ [])
    (ha : ∀ l ∈ rest, l.Allowed requireMasked)
    (hlen : got.length + (rest.flatMap fun l => l.piece.payload).length ≤ maxMessage)
    (h : r.flatten = encodeLater rest ++ after)
    (hrest : ∀ r', r'.flatten = after → Messages.Yields requireMasked ⟨r', none⟩ msgs ending) :
    Messages.Yields requireMasked ⟨r, some got⟩
      (laterControls rest ++ .binary (got ++ rest.flatMap fun l => l.piece.payload) :: msgs) ending := by
  induction rest generalizing r got with
  | nil => exact absurd rfl hne
  | cons l rest ih =>
    obtain ⟨hcontrols, hpiece⟩ := ha l List.mem_cons_self
    rw [List.flatMap_cons, List.length_append] at hlen
    rw [encodeLater, List.append_assoc, List.append_assoc] at h
    rw [laterControls, List.flatMap_cons, List.append_assoc]
    refine yields_controls hcontrols h fun r₁ h₁ => ?_
    obtain ⟨r₂, hframe, h₂⟩ := frame_piece l.piece hpiece h₁ (by omega)
    have hnext := next_frame (m := ⟨r₁, some got⟩) hframe
    rw [takeFrame_later _ (by omega)] at hnext
    cases rest with
    | nil =>
      simp only [List.flatMap_cons, List.flatMap_nil, List.append_nil, List.nil_append]
      exact .message hnext (hrest r₂ h₂)
    | cons l' rest =>
      have hlen' : (got ++ l.piece.payload).length +
          ((l' :: rest).flatMap fun l => l.piece.payload).length ≤ maxMessage := by
        rw [List.length_append]
        omega
      have hmore := ih (List.cons_ne_nil _ _) (fun k hk => ha k (List.mem_cons_of_mem _ hk)) hlen' h₂
      rw [List.append_assoc] at hmore
      exact hmore.of_next_eq hnext

variable (after) in
-- Refused at the fragment that goes over the limit, after the control frames
-- before it.
theorem yields_later_long {rest : List Later} {got : List UInt8} (ha : ∀ l ∈ rest, l.Allowed requireMasked)
    (hgot : got.length ≤ maxMessage)
    (hlen : maxMessage < got.length + (rest.flatMap fun l => l.piece.payload).length) :
    ∃ msgs, msgs <+: laterControls rest ∧ ∀ r : List (List UInt8), r.flatten = encodeLater rest ++ after →
      Messages.Yields requireMasked ⟨r, some got⟩ msgs (some tooLarge) := by
  induction rest generalizing got with
  | nil =>
    rw [List.flatMap_nil, List.length_nil] at hlen
    omega
  | cons l rest ih =>
    obtain ⟨hcontrols, hpiece⟩ := ha l List.mem_cons_self
    rw [List.flatMap_cons, List.length_append] at hlen
    simp only [encodeLater, List.append_assoc]
    by_cases hnow : maxMessage < got.length + l.piece.payload.length
    · refine ⟨l.controls.map Control.msg ++ [], ?_, fun r h =>
        yields_controls hcontrols h fun r₁ h₁ => .error ?_⟩
      · rw [List.append_nil, laterControls, List.flatMap_cons]
        exact List.prefix_append _ _
      · by_cases hlong : maxMessage < l.piece.payload.length
        · exact next_error (frame_long l.piece hpiece h₁ hlong)
        · obtain ⟨r₂, hframe, h₂⟩ := frame_piece l.piece hpiece h₁ (by omega)
          have htake : takeFrame (some got) rest.isEmpty Opcode.continuation.code l.piece.payload =
              .error tooLarge := by
            rw [takeFrame, if_neg (by decide), if_pos rfl]
            exact if_pos hnow
          rw [next_frame (m := ⟨r₁, some got⟩) hframe, htake]
    · cases rest with
      | nil =>
        rw [List.flatMap_nil, List.length_nil] at hlen
        omega
      | cons l' rest =>
        have hgot' : (got ++ l.piece.payload).length ≤ maxMessage := by
          rw [List.length_append]
          omega
        have hlen' : maxMessage < (got ++ l.piece.payload).length +
            ((l' :: rest).flatMap fun l => l.piece.payload).length := by
          rw [List.length_append]
          omega
        obtain ⟨msgs, hpre, hy⟩ := ih (fun k hk => ha k (List.mem_cons_of_mem _ hk)) hgot' hlen'
        refine ⟨l.controls.map Control.msg ++ msgs, ?_, fun r h =>
          yields_controls hcontrols h fun r₁ h₁ => ?_⟩
        · rw [laterControls, List.flatMap_cons]
          exact (List.prefix_append_right_inj _).mpr hpre
        · obtain ⟨r₂, hframe, h₂⟩ := frame_piece l.piece hpiece h₁ (by omega)
          have hnext := next_frame (m := ⟨r₁, some got⟩) hframe
          rw [takeFrame_later _ (by omega)] at hnext
          exact (hy r₂ h₂).of_next_eq hnext

theorem length_joined (first : Piece) (rest : List Later) : (joined first rest).length =
    first.payload.length + (rest.flatMap fun l => l.piece.payload).length := List.length_append

theorem yields_item {item : Item} (ha : item.Allowed requireMasked) (hs : item.Short)
    (h : r.flatten = item.encode ++ after)
    (hrest : ∀ r', r'.flatten = after → Messages.Yields requireMasked ⟨r', none⟩ msgs ending) :
    Messages.Yields requireMasked ⟨r, none⟩ (item.msgs ++ msgs) ending := by
  cases item with
  | control c => exact yields_control ha h hrest
  | binary first rest =>
    have hlen : (joined first rest).length ≤ maxMessage := hs
    rw [length_joined] at hlen
    rw [Item.encode, List.append_assoc] at h
    obtain ⟨r₁, hframe, h₁⟩ := frame_piece first ha.1 h (by omega)
    have hnext := next_frame (m := ⟨r, none⟩) hframe
    cases rest with
    | nil =>
      have hone : Item.msgs (.binary first []) = [.binary first.payload] := by
        rw [Item.msgs, joined, List.flatMap_nil, List.append_nil]
        rfl
      rw [hone]
      exact .message hnext (hrest r₁ h₁)
    | cons l rest =>
      have hmore := yields_later (List.cons_ne_nil l rest) ha.2 hlen h₁ hrest
      rw [Item.msgs, List.append_assoc]
      exact hmore.of_next_eq hnext

variable (after) in
theorem yields_item_long {first : Piece} {rest : List Later}
    (ha : (Item.binary first rest).Allowed requireMasked) (hs : maxMessage < (joined first rest).length) :
    ∃ msgs, msgs <+: laterControls rest ∧ ∀ r : List (List UInt8),
      r.flatten = (Item.binary first rest).encode ++ after →
      Messages.Yields requireMasked ⟨r, none⟩ msgs (some tooLarge) := by
  rw [length_joined] at hs
  simp only [Item.encode, List.append_assoc]
  by_cases hlong : maxMessage < first.payload.length
  · exact ⟨[], List.nil_prefix, fun r h => .error (next_error (frame_long first ha.1 h hlong))⟩
  · obtain ⟨msgs, hpre, hy⟩ := yields_later_long after ha.2 (Nat.not_lt.mp hlong) hs
    refine ⟨msgs, hpre, fun r h => ?_⟩
    obtain ⟨r₁, hframe, h₁⟩ := frame_piece first ha.1 h (Nat.not_lt.mp hlong)
    have hnext := next_frame (m := ⟨r, none⟩) hframe
    cases rest with
    | nil =>
      rw [List.flatMap_nil, List.length_nil] at hs
      omega
    | cons l rest => exact (hy r₁ h₁).of_next_eq hnext

theorem yields_items {items : List Item} (ha : ∀ item ∈ items, item.Allowed requireMasked)
    (hs : ∀ item ∈ items, item.Short) (h : r.flatten = items.flatMap Item.encode ++ after)
    (hrest : ∀ r', r'.flatten = after → Messages.Yields requireMasked ⟨r', none⟩ msgs ending) :
    Messages.Yields requireMasked ⟨r, none⟩ (items.flatMap Item.msgs ++ msgs) ending := by
  induction items generalizing r with
  | nil => exact hrest r h
  | cons item items ih =>
    rw [List.flatMap_cons, List.append_assoc] at h
    rw [List.flatMap_cons, List.append_assoc]
    exact yields_item (ha item List.mem_cons_self) (hs item List.mem_cons_self) h fun r' hr' =>
      ih (fun k hk => ha k (List.mem_cons_of_mem _ hk)) (fun k hk => hs k (List.mem_cons_of_mem _ hk)) hr'

-- What `write_message` writes is one frame, with the shortest form that fits.
theorem writeMessage_piece (op : Opcode) (payload : List UInt8) (key : Option (List UInt8))
    (hkey : ∀ k, key = some k → k.length = 4) (hlen : payload.length < 2 ^ 64) :
    ∃ p : Piece, p.payload = payload ∧ p.key = key ∧
      writeMessage op payload key = .ok (p.encode true op) := by
  by_cases hseven : payload.length ≤ 125
  · refine ⟨⟨payload, key, .seven, Nat.lt_succ_of_le hseven, hkey⟩, rfl, rfl, ?_⟩
    simp only [writeMessage, if_pos hseven]
    cases key <;> rfl
  by_cases hsixteen : payload.length < 2 ^ 16
  · refine ⟨⟨payload, key, .sixteen, hsixteen, hkey⟩, rfl, rfl, ?_⟩
    simp only [writeMessage, if_neg hseven, if_pos hsixteen]
    cases key <;> rfl
  · refine ⟨⟨payload, key, .sixtyFour, hlen, hkey⟩, rfl, rfl, ?_⟩
    simp only [writeMessage, if_neg hseven, if_neg hsixteen, if_pos hlen]
    cases key <;> rfl

-- Every message comes back, whatever its fragments, the control frames between them,
-- the masks and the chunks. One that is too long is refused.
theorem ws_messages_survive (requireMasked : Bool) (items : List Item)
    (ha : ∀ item ∈ items, item.Allowed requireMasked) (hs : ∀ item ∈ items, item.Short) :
    (∀ chunks : List (List UInt8), chunks.flatten = items.flatMap Item.encode →
      Messages.Yields requireMasked ⟨chunks, none⟩ (items.flatMap Item.msgs) none) ∧
    (∀ (first : Piece) (rest : List Later) (after : List UInt8) (chunks : List (List UInt8)),
      (Item.binary first rest).Allowed requireMasked → maxMessage < (joined first rest).length →
      chunks.flatten = items.flatMap Item.encode ++ ((Item.binary first rest).encode ++ after) →
      ∃ msgs, msgs <+: laterControls rest ∧
        Messages.Yields requireMasked ⟨chunks, none⟩ (items.flatMap Item.msgs ++ msgs) (some tooLarge)) ∧
    ∀ (op : Opcode) (payload : List UInt8) (key : Option (List UInt8)),
      (∀ k, key = some k → k.length = 4) → payload.length < 2 ^ 64 →
      ∃ p : Piece, p.payload = payload ∧ p.key = key ∧
        writeMessage op payload key = .ok (p.encode true op) := by
  refine ⟨fun chunks h => ?_, fun first rest after chunks hlong hlen h => ?_, writeMessage_piece⟩
  · have hall : Messages.Yields requireMasked ⟨chunks, none⟩ (items.flatMap Item.msgs ++ []) none :=
      yields_items ha hs (h.trans (List.append_nil _).symm)
        fun r hr => .clean (next_end (frame_end requireMasked hr))
    rwa [List.append_nil] at hall
  · obtain ⟨msgs, hpre, hy⟩ := yields_item_long after hlong hlen
    exact ⟨msgs, hpre, yields_items ha hs h hy⟩

-- A masked message in two fragments with a ping between them, cut in odd
-- places.
theorem ws_messages_survive_sample :
    Messages.Yields true ⟨[[0x02, 0x81, 1, 2, 3], [4, 6, 0x89, 0x80, 0, 0, 0, 0, 0x80], [0x81, 0, 0, 0, 0, 9]],
      none⟩ [.ping [], .binary [7, 9]] none := by
  have hall := ws_messages_survive true
    [.binary ⟨[7], some [1, 2, 3, 4], .seven, by decide, by simp⟩
      [⟨[⟨.ping, ⟨[], some [0, 0, 0, 0], .seven, by decide, by simp⟩⟩],
        ⟨[9], some [0, 0, 0, 0], .seven, by decide, by simp⟩⟩]]
    (by simp [Item.Allowed, Later.Allowed, Control.Allowed, Piece.Allowed])
    (by simp [Item.Short, joined, maxMessage])
  exact hall.1 _ (by decide)

end Streams

end WaveDb.Net
