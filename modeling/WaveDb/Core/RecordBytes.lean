import WaveDb.Core.Metadata
import WaveDb.Wire.Codec

-- The stored form of a record: its type's hash, the metadata behind its length, the
-- body.
namespace WaveDb.Core

open WaveDb.Lib WaveDb.Wire

variable {Γ : Env} {X Y : Type}

inductive Unread
  | refused (e : Error)
  | fuel
  | panic
  deriving DecidableEq

-- `?` on a wire result.
def ofWire : Except Fault X → Except Unread X
  | .ok x => .ok x
  | .error (.wire _) => .error (.refused .wire)
  | .error .fuel => .error .fuel
  | .error .panic => .error .panic

def Refused (r : Except Unread X) : Prop := ∃ e, r = .error (.refused e)

def Settled (r : Except Unread X) : Prop := Refused r ∨ ∃ x, r = .ok x

theorem Refused.settled {r : Except Unread X} (h : Refused r) : Settled r := .inl h

theorem settled_ofWire {r : Except Fault X} (h : Answered r) : Settled (ofWire r) := by
  rcases h with ⟨e, rfl⟩ | ⟨x, rfl⟩
  · exact .inl ⟨.wire, rfl⟩
  · exact .inr ⟨x, rfl⟩

theorem Settled.map {r : Except Unread X} (h : Settled r) (f : X → Y) : Settled (r.map f) := by
  rcases h with ⟨e, rfl⟩ | ⟨x, rfl⟩
  · exact .inl ⟨e, rfl⟩
  · exact .inr ⟨f x, rfl⟩

section Codecs

def localId : Codec Γ LocalId :=
  ((Codec.uint .u64).pair (Codec.uint .u16)).iso (fun l => (l.key, l.lower))
    (fun p => ⟨p.1, p.2⟩) fun _ _ => rfl

-- A 48-bit field is its low 32 bits and its high 16.
def u48 : Codec Γ Nat :=
  ((Codec.uint .u32).pair (Codec.uint .u16)).iso (fun n => (n % 2 ^ 32, n / 2 ^ 32))
    (fun p => p.1 + 2 ^ 32 * p.2) fun n _ => Nat.mod_add_div n (2 ^ 32)

theorem u48_fits {n : Nat} (h : n < 2 ^ 48) : (u48 (Γ := Γ)).Fits n := by
  refine ⟨Nat.mod_lt n (by decide), ?_⟩
  change n / 2 ^ 32 < 2 ^ (8 * 2)
  omega

theorem localId_sized : (localId (Γ := Γ)).ty.UnitsSized Γ := ⟨trivial, trivial, trivial⟩

theorem u48_sized : (u48 (Γ := Γ)).ty.UnitsSized Γ := ⟨trivial, trivial, trivial⟩

-- `PermissionRef` is the one enum a stored header holds.
def coreEnv : Env where
  decl
    | 0 => .enum [.unit, .fields [.vec (.tuple [.scalar .u32, .scalar .u16])],
        .fields [.scalar .u64]] (by decide)
    | _ => .struct []
  size
    | 0 => 5
    | _ => 0
  size_eq
    | 0 => rfl
    | _ + 1 => rfl

theorem coreEnv_unitsSized : coreEnv.UnitsSized := by
  rintro (_ | name)
  · intro variant hv
    simp only [List.mem_cons, List.not_mem_nil, or_false] at hv
    obtain rfl | rfl | rfl := hv
    · trivial
    · exact ⟨⟨by decide, trivial, trivial, trivial⟩, trivial⟩
    · exact ⟨trivial, trivial⟩
  · trivial

theorem coreEnv_founded : coreEnv.Founded := by
  refine ⟨fun name => name, ?_⟩
  rintro (_ | name)
  · intro variant hv
    simp only [List.mem_cons, List.not_mem_nil, or_false] at hv
    obtain rfl | rfl | rfl := hv
    · trivial
    · exact ⟨trivial, trivial⟩
    · exact ⟨trivial, trivial⟩
  · trivial

def tenants : Codec coreEnv (List Nat) := u48.list

def permissionRef : Codec coreEnv PermissionRef where
  ty := .derived 0
  toVal
    | .anyone => .unit rfl 0 rfl
    | .tenants list => .variant rfl 1 rfl (.cons (tenants.toVal list) .nil)
    | .group group => .variant rfl 2 rfl (.cons ((Codec.uint .u64).toVal group) .nil)
  ofVal v :=
    match (variantFields rfl 1 rfl v : Option (Fields coreEnv [tenants.ty])) with
    | some fields => .tenants (tenants.ofVal (headField fields))
    | none =>
      match (variantFields rfl 2 rfl v : Option (Fields coreEnv [.scalar .u64])) with
      | some fields => .group ((Codec.uint .u64).ofVal (headField fields))
      | none => .anyone
  Fits
    | .anyone => True
    | .tenants list => ∀ tenant ∈ list, tenant < 2 ^ 48
    | .group group => group < 2 ^ 64
  ofVal_toVal
    | .anyone, _ => rfl
    | .tenants _, h => congrArg PermissionRef.tenants
        (tenants.ofVal_toVal _ fun tenant ht => u48_fits (h tenant ht))
    | .group _, h => congrArg PermissionRef.group ((Codec.uint .u64).ofVal_toVal _ h)

def instant : Codec coreEnv Nat := Codec.uint .u64

end Codecs

namespace Succession

-- Nine bytes of stack: a tag and the instant.
def encodeStack : Succession → List UInt8
  | .createdAt instant => 0 :: leBytes 8 instant
  | .next instant => 1 :: leBytes 8 instant

def decode : Reader Succession := fun stack heap => do
  let (tag, stack) ← stack.checkedU8
  let (bytes, stack) ← stack.checkedTake 8
  if bytes.length ≠ 8 then .error (.wire .unexpectedEof)
  else if tag = 0 then return (.createdAt (ofLeBytes bytes), stack, heap)
  else if tag = 1 then return (.next (ofLeBytes bytes), stack, heap)
  else .error (.wire (.invalidTag tag))

def instantOf : Succession → Nat
  | .createdAt instant | .next instant => instant

theorem recovers (s : Succession) (h : s.instantOf < 2 ^ 64) : decode.Recovers s s.encodeStack [] := by
  intro stack heap s' h' hstack _
  cases s with
  | createdAt t =>
    have htail : (stack.skip 1).Stands (leBytes 8 t ++ s') :=
      Cursor.Stands.skip (show stack.Stands ([0] ++ (leBytes 8 t ++ s')) from hstack) rfl
    simp only [decode, hstack.checkedU8, htail.checkedTake (length_leBytes 8 t), bind, Except.bind]
    simp [length_leBytes, ofLeBytes_leBytes_of_lt 8 t h, encodeStack, pure, Except.pure]
  | next t =>
    have htail : (stack.skip 1).Stands (leBytes 8 t ++ s') :=
      Cursor.Stands.skip (show stack.Stands ([1] ++ (leBytes 8 t ++ s')) from hstack) rfl
    simp only [decode, hstack.checkedU8, htail.checkedTake (length_leBytes 8 t), bind, Except.bind]
    simp [length_leBytes, ofLeBytes_leBytes_of_lt 8 t h, encodeStack, pure, Except.pure]

theorem answers (left : Nat) : decode.Answers left := by
  intro stack heap hstack hheap _
  rcases Cursor.u8_cases hstack with ⟨-, htag⟩ | ⟨tag, hone, -, htag⟩
  · exact .inl ⟨.unexpectedEof, by simp only [decode, htag, bind, Except.bind]⟩
  rcases Cursor.take_cases hone.inBounds 8 with ⟨-, ht⟩ | ⟨bytes, hlen, -, height, -, ht⟩
  · exact .inl ⟨.unexpectedEof, by simp only [decode, htag, ht, bind, Except.bind]⟩
  simp only [decode, htag, ht, bind, Except.bind, hlen, ne_eq, not_true_eq_false, if_false]
  split
  · exact .inr ⟨_, _, _, rfl, hone.trans height, .refl hheap⟩
  · split
    · exact .inr ⟨_, _, _, rfl, hone.trans height, .refl hheap⟩
    · exact .inl ⟨_, rfl⟩

end Succession

namespace Metadata

-- The fields in the order of their declaration, first their stacks and then
-- their heaps.
def encodeStack (m : Metadata) : List UInt8 :=
  instant.option.stack m.previous ++ (m.succession.encodeStack ++
    (Codec.bool.stack (Γ := coreEnv) m.removed ++ (localId.option.stack (Γ := coreEnv) m.pivotId ++
      (u48.stack (Γ := coreEnv) m.user ++ (instant.stack m.deviceCreated ++
        permissionRef.option.stack m.permission)))))

def encodeHeap (m : Metadata) : List UInt8 :=
  instant.option.heap m.previous ++ (Codec.bool.heap (Γ := coreEnv) m.removed ++
    (localId.option.heap (Γ := coreEnv) m.pivotId ++ (u48.heap (Γ := coreEnv) m.user ++
      (instant.heap m.deviceCreated ++ permissionRef.option.heap m.permission))))

def toWire (m : Metadata) : List UInt8 := m.encodeStack ++ m.encodeHeap

def decode (fuel : Nat) : Reader Metadata := do
  let previous ← instant.option.read fuel
  let succession ← Succession.decode
  let removed ← Codec.bool.read (Γ := coreEnv) fuel
  let pivotId ← localId.option.read (Γ := coreEnv) fuel
  let user ← u48.read (Γ := coreEnv) fuel
  let deviceCreated ← instant.read fuel
  let permission ← permissionRef.option.read fuel
  return ⟨previous, succession, removed, pivotId, user, deviceCreated, permission⟩

def stackSize : Nat := 27

def fromWire (fuel : Nat) (bytes : List UInt8) : Except Fault Metadata :=
  (decode fuel).fromWire stackSize bytes

structure Fits (m : Metadata) : Prop where
  previous : ∀ t, m.previous = some t → t < 2 ^ 64
  succession : m.succession.instantOf < 2 ^ 64
  pivotId : ∀ l, m.pivotId = some l → l.key < 2 ^ 64 ∧ l.lower < 2 ^ 16
  user : m.user < 2 ^ 48
  deviceCreated : m.deviceCreated < 2 ^ 64
  permission : ∀ p, m.permission = some p → permissionRef.Fits p

theorem length_encodeStack (m : Metadata) : m.encodeStack.length = stackSize := by
  have hsucc : m.succession.encodeStack.length = 9 := by
    cases m.succession <;> simp [Succession.encodeStack]
  simp only [encodeStack, List.length_append, Codec.length_stack, hsucc]
  rfl

theorem eventually_recovers {m : Metadata} (hfits : m.Fits) (hheap : m.encodeHeap.length < 2 ^ 32) :
    ∀ᶠ fuel in Filter.atTop, (decode fuel).Recovers m m.encodeStack m.encodeHeap := by
  simp only [encodeHeap, List.length_append] at hheap
  filter_upwards [
    instant.option.eventually_recovers coreEnv_unitsSized trivial hfits.previous (by omega),
    (Codec.bool (Γ := coreEnv)).eventually_recovers coreEnv_unitsSized trivial (x := m.removed) trivial (by omega),
    localId.option.eventually_recovers coreEnv_unitsSized localId_sized hfits.pivotId (by omega),
    u48.eventually_recovers coreEnv_unitsSized u48_sized (u48_fits hfits.user) (by omega),
    instant.eventually_recovers coreEnv_unitsSized trivial hfits.deviceCreated (by omega),
    permissionRef.option.eventually_recovers coreEnv_unitsSized trivial hfits.permission (by omega)]
    with fuel hprevious hremoved hpivot huser hdevice hpermission
  have hall : (decode fuel).Recovers m _ _ :=
    hprevious.bind ((m.succession.recovers hfits.succession).bind (hremoved.bind (hpivot.bind
      (huser.bind (hdevice.bind (hpermission.bind (.pure m)))))))
  simpa only [encodeStack, encodeHeap, List.append_nil, List.nil_append] using hall

theorem eventually_answers (left : Nat) : ∀ᶠ fuel in Filter.atTop, (decode fuel).Answers left := by
  filter_upwards [
    instant.option.eventually_answers coreEnv_unitsSized coreEnv_founded trivial left,
    Codec.bool.eventually_answers coreEnv_unitsSized coreEnv_founded trivial left,
    localId.option.eventually_answers coreEnv_unitsSized coreEnv_founded localId_sized left,
    u48.eventually_answers coreEnv_unitsSized coreEnv_founded u48_sized left,
    instant.eventually_answers coreEnv_unitsSized coreEnv_founded trivial left,
    permissionRef.option.eventually_answers coreEnv_unitsSized coreEnv_founded trivial left]
    with fuel hprevious hremoved hpivot huser hdevice hpermission
  exact hprevious.bind fun _ => (Succession.answers left).bind fun _ => hremoved.bind fun _ =>
    hpivot.bind fun _ => huser.bind fun _ => hdevice.bind fun _ => hpermission.bind fun _ => .pure _ _

end Metadata

def headOf (bytes : List UInt8) : Option Nat :=
  if bytes.length < 8 then none else some (ofLeBytes (bytes.take 8))

theorem headOf_append {hash : Nat} (h : hash < 2 ^ 64) (rest : List UInt8) :
    headOf (leBytes 8 hash ++ rest) = some hash := by
  have hlen : ¬(leBytes 8 hash ++ rest).length < 8 := by
    rw [List.length_append, length_leBytes]
    omega
  rw [headOf, if_neg hlen, List.take_left' (length_leBytes 8 hash), ofLeBytes_leBytes_of_lt 8 hash h]

theorem le_length_of_headOf {bytes : List UInt8} {got : Nat} (h : headOf bytes = some got) :
    8 ≤ bytes.length := by
  by_contra hlen
  rw [headOf, if_pos (by omega)] at h
  exact nomatch h

section Record

def encodeRecordRaw (hash : Nat) (metadata : Metadata) (body : List UInt8) : List UInt8 :=
  leBytes 8 hash ++ (leBytes 4 metadata.toWire.length ++ (metadata.toWire ++ body))

def encodeRecord (c : Codec Γ X) (hash : Nat) (metadata : Metadata) (value : X) : List UInt8 :=
  encodeRecordRaw hash metadata (c.encode value)

def splitRecord (fuel hash : Nat) (bytes : List UInt8) : Except Unread (Metadata × List UInt8) :=
  match headOf bytes with
  | none => .error (.refused (.unknownStructHash 0))
  | some got =>
    if got ≠ hash then .error (.refused (.unknownStructHash got))
    else if bytes.length < 12 then .error (.refused .wire)
    else
      let metaEnd := 12 + ofLeBytes ((bytes.drop 8).take 4)
      if bytes.length < metaEnd then .error (.refused .wire)
      else do
        let metaBytes ← ofWire (slice bytes 12 metaEnd)
        let metadata ← ofWire (Metadata.fromWire fuel metaBytes)
        let body ← ofWire (slice bytes metaEnd bytes.length)
        return (metadata, body)

def decodeRecord (c : Codec Γ X) (fuel hash : Nat) (bytes : List UInt8) :
    Except Unread (Metadata × X) := do
  let (metadata, body) ← splitRecord fuel hash bytes
  let value ← ofWire (c.decode fuel body)
  return (metadata, value)

variable {fuel hash : Nat} {bytes : List UInt8}

theorem refused_splitRecord (h : headOf bytes ≠ some hash) : Refused (splitRecord fuel hash bytes) := by
  rw [splitRecord]
  cases hhead : headOf bytes with
  | none => exact ⟨_, rfl⟩
  | some got =>
    have hne : got ≠ hash := fun heq => h (by rw [hhead, heq])
    exact ⟨_, if_pos hne⟩

theorem refused_decodeRecord {c : Codec Γ X} (h : headOf bytes ≠ some hash) :
    Refused (decodeRecord c fuel hash bytes) := by
  obtain ⟨e, he⟩ : Refused (splitRecord fuel hash bytes) := refused_splitRecord h
  refine ⟨e, ?_⟩
  rw [decodeRecord, he]
  rfl

-- An archived body is moved without being decoded: this holds of any bytes.
theorem eventually_splitRecord {metadata : Metadata} (hhash : hash < 2 ^ 64) (hfits : metadata.Fits)
    (hsize : metadata.toWire.length < 2 ^ 32) (body : List UInt8) :
    ∀ᶠ fuel in Filter.atTop,
      splitRecord fuel hash (encodeRecordRaw hash metadata body) = .ok (metadata, body) := by
  have hheap : metadata.encodeHeap.length < 2 ^ 32 := by
    rw [Metadata.toWire, List.length_append] at hsize
    omega
  filter_upwards [Metadata.eventually_recovers hfits hheap] with fuel hfuel
  have hmeta : Metadata.fromWire fuel metadata.toWire = .ok metadata :=
    hfuel.fromWire metadata.length_encodeStack
  have hall : (encodeRecordRaw hash metadata body).length = 12 + metadata.toWire.length + body.length := by
    simp only [encodeRecordRaw, List.length_append, length_leBytes]
    omega
  have hafter : (encodeRecordRaw hash metadata body).drop 12 = metadata.toWire ++ body := by
    rw [encodeRecordRaw, ← List.append_assoc]
    exact List.drop_left' (by simp)
  have hlen : ofLeBytes (((encodeRecordRaw hash metadata body).drop 8).take 4) =
      metadata.toWire.length := by
    rw [encodeRecordRaw, List.drop_left' (length_leBytes 8 hash), List.take_left' (length_leBytes 4 _),
      ofLeBytes_leBytes_of_lt 4 _ hsize]
  have hfront : slice (encodeRecordRaw hash metadata body) 12 (12 + metadata.toWire.length) =
      .ok metadata.toWire := by
    rw [Cursor.slice_eq _ (by omega) (by omega), hafter, Nat.add_sub_cancel_left, List.take_left]
  have hback : slice (encodeRecordRaw hash metadata body) (12 + metadata.toWire.length)
      (encodeRecordRaw hash metadata body).length = .ok body := by
    rw [Cursor.slice_eq _ (by omega) (by omega), ← List.drop_drop, hafter, List.drop_left, hall,
      Nat.add_sub_cancel_left, List.take_length]
  have hhead : headOf (encodeRecordRaw hash metadata body) = some hash := headOf_append hhash _
  have hshort : ¬(encodeRecordRaw hash metadata body).length < 12 := by omega
  have hfits' : ¬(encodeRecordRaw hash metadata body).length < 12 + metadata.toWire.length := by omega
  simp only [splitRecord, hhead, ne_eq, not_true_eq_false, if_false, if_neg hshort, hlen,
    if_neg hfits', hfront, hback]
  change (ofWire (Metadata.fromWire fuel metadata.toWire) >>= fun _ => _) = _
  rw [hmeta]
  rfl

theorem eventually_decodeRecord {c : Codec Γ X} (hΓ : Γ.UnitsSized)
    (hty : c.ty.UnitsSized Γ) {metadata : Metadata} {value : X}
    (hhash : hash < 2 ^ 64) (hfits : metadata.Fits) (hvalue : c.Fits value)
    (hsize : metadata.toWire.length < 2 ^ 32) (hbody : (c.encode value).length < 2 ^ 32) :
    ∀ᶠ fuel in Filter.atTop,
      decodeRecord c fuel hash (encodeRecord c hash metadata value) = .ok (metadata, value) := by
  filter_upwards [eventually_splitRecord hhash hfits hsize (c.encode value),
    c.eventually_decode_encode hΓ hty hvalue hbody] with fuel hsplit hdecode
  rw [decodeRecord, encodeRecord, hsplit]
  change (ofWire (c.decode fuel (c.encode value)) >>= fun value => _) = _
  rw [hdecode]
  rfl

theorem splitRecord_cases (fuel hash : Nat) (bytes : List UInt8) :
    Refused (splitRecord fuel hash bytes) ∨ ∃ metaBytes body : List UInt8,
      metaBytes.length ≤ bytes.length ∧ body.length ≤ bytes.length ∧
      splitRecord fuel hash bytes =
        (ofWire (Metadata.fromWire fuel metaBytes)).map fun metadata => (metadata, body) := by
  by_cases hhead : headOf bytes = some hash
  swap
  · exact .inl (refused_splitRecord hhead)
  simp only [splitRecord, hhead, ne_eq, not_true_eq_false, if_false]
  split
  · exact .inl ⟨_, rfl⟩
  split
  · exact .inl ⟨_, rfl⟩
  right
  rw [Cursor.slice_eq bytes (Nat.le_add_right 12 _) (by omega),
    Cursor.slice_eq bytes (by omega) (Nat.le_refl _)]
  refine ⟨_, _, ?_, ?_, rfl⟩
  · rw [List.length_take, List.length_drop]
    omega
  · rw [List.length_take, List.length_drop]
    omega

theorem eventually_settled_splitRecord (hash : Nat) (bytes : List UInt8) :
    ∀ᶠ fuel in Filter.atTop, Settled (splitRecord fuel hash bytes) := by
  filter_upwards [Metadata.eventually_answers bytes.length] with fuel hfuel
  rcases splitRecord_cases fuel hash bytes with href | ⟨metaBytes, body, hle, -, hsplit⟩
  · exact href.settled
  · rw [hsplit]
    exact (settled_ofWire (hfuel.fromWire hle)).map _

theorem eventually_settled_decodeRecord (c : Codec Γ X) (hΓ : Γ.UnitsSized) (hfounded : Γ.Founded)
    (hty : c.ty.UnitsSized Γ) (hash : Nat) (bytes : List UInt8) :
    ∀ᶠ fuel in Filter.atTop, Settled (decodeRecord c fuel hash bytes) := by
  filter_upwards [Metadata.eventually_answers bytes.length,
    c.eventually_answered hΓ hfounded hty bytes.length] with fuel hmeta hvalue
  rcases splitRecord_cases fuel hash bytes with ⟨e, he⟩ | ⟨metaBytes, body, hle, hbody, hsplit⟩
  · exact .inl ⟨e, by rw [decodeRecord, he]; rfl⟩
  · rw [decodeRecord, hsplit]
    rcases settled_ofWire (hmeta.fromWire hle) with ⟨e, he⟩ | ⟨metadata, hm⟩
    · exact .inl ⟨e, by rw [Metadata.fromWire, he]; rfl⟩
    · rw [Metadata.fromWire, hm]
      exact (settled_ofWire (hvalue body hbody)).map fun value => (metadata, value)

end Record

end WaveDb.Core
