import WaveDb.Lib.Table
import WaveDb.Storage.Directory
import WaveDb.Wire.Checked
import WaveDb.Wire.Project

-- A slot page as bytes: its records, compressed against a state of the type's
-- dictionary, behind a checksum and a length.
namespace WaveDb.Storage.PageBytes

open WaveDb.Lib WaveDb.Wire

-- Compression with a raw dictionary undoes itself against the same bytes.
class Zstd where
  compress : Bytes → Bytes → Bytes
  decompress : Bytes → Bytes → Nat → Option Bytes
  decompress_compress (dict raw : Bytes) : decompress dict (compress dict raw) raw.length = some raw

section Framing

def lenPrefix : Nat := 4

-- `[len][payload]`, with the length cast to 32 bits.
def framed (payload : Bytes) : Bytes := leBytes lenPrefix payload.length ++ payload

def unframe (truncated outOfRange : String) (buf : Bytes) : Except StorageError Bytes :=
  if buf.length < lenPrefix then .error (.corrupt truncated)
  else if buf.length < lenPrefix + ofLeBytes (buf.take lenPrefix) then .error (.corrupt outOfRange)
  else .ok ((buf.drop lenPrefix).take (ofLeBytes (buf.take lenPrefix)))

theorem unframe_framed (truncated outOfRange : String) {payload : Bytes}
    (hfit : payload.length < 2 ^ 32) (rest : Bytes) :
    unframe truncated outOfRange (framed payload ++ rest) = .ok payload := by
  have hhead : (framed payload ++ rest).take lenPrefix = leBytes lenPrefix payload.length := by
    rw [framed, List.append_assoc, List.take_left' (length_leBytes _ _)]
  have hstored : ofLeBytes (leBytes lenPrefix payload.length) = payload.length :=
    ofLeBytes_leBytes_of_lt _ _ hfit
  have hlong : (framed payload ++ rest).length = lenPrefix + payload.length + rest.length := by
    rw [List.length_append, framed, List.length_append, length_leBytes]
  rw [unframe, hhead, hstored, hlong, if_neg (by omega), if_neg (by omega), framed,
    List.append_assoc, List.drop_left' (length_leBytes _ _), List.take_left' rfl]

end Framing

structure Dictionary where
  buf : Bytes
  deriving DecidableEq

namespace Dictionary

def new : Dictionary := ⟨[]⟩

def sample (dict : Dictionary) (record : Bytes) : Dictionary :=
  if dictCap - dict.buf.length = 0 then dict
  else ⟨dict.buf ++ record.take (min record.length (dictCap - dict.buf.length))⟩

def len (dict : Dictionary) : Nat := dict.buf.length

def state (dict : Dictionary) (len : Nat) : Option Bytes :=
  if len ≤ dict.buf.length then some (dict.buf.take len) else none

theorem buf_sample (dict : Dictionary) (record : Bytes) :
    dict.buf <+: (dict.sample record).buf := by
  unfold sample
  split
  · exact List.prefix_rfl
  · exact List.prefix_append _ _

theorem len_sample_le {dict : Dictionary} (h : dict.len ≤ dictCap) (record : Bytes) :
    (dict.sample record).len ≤ dictCap := by
  unfold sample
  split
  · exact h
  · simp only [len, List.length_append, List.length_take] at h ⊢
    omega

end Dictionary

section Layout

def pageEnv : Env where
  decl
    | 0 => .struct [.vec (.tuple [.scalar .u128, .vec (.scalar .u8)])]
    | 1 => .enum [.fields [.vec (.scalar .u8)],
        .fields [.scalar .u32, .scalar .u32, .vec (.scalar .u8)]] (by decide)
    | 2 => .struct [.scalar .u64, .derived 1]
    | _ => .struct []
  size
    | 0 => 4
    | 1 => 5
    | 2 => 13
    | _ => 0
  size_eq
    | 0 => rfl
    | 1 => rfl
    | 2 => rfl
    | _ + 3 => rfl

theorem pageEnv_unitsSized : pageEnv.UnitsSized := by
  rintro (_ | _ | _ | name)
  · exact ⟨⟨by decide, trivial, ⟨by decide, trivial⟩, trivial⟩, trivial⟩
  · intro variant hvariant
    simp only [List.mem_cons, List.not_mem_nil, or_false] at hvariant
    rcases hvariant with rfl | rfl
    · exact ⟨⟨by decide, trivial⟩, trivial⟩
    · exact ⟨trivial, trivial, ⟨by decide, trivial⟩, trivial⟩
  · exact ⟨trivial, trivial, trivial⟩
  · trivial

def pageFuel : Nat := 8

abbrev RawId := Fin (2 ^ 128)

abbrev recordTy : WireTy := .tuple [.scalar .u128, .vec (.scalar .u8)]

def recordUnits : List (RawId × Bytes) → Units pageEnv recordTy
  | [] => .nil
  | (id, bytes) :: records => .cons (.tuple (.cons (.scalar (BitVec.ofFin id))
      (.cons (.vec (byteUnits bytes)) .nil))) (recordUnits records)

def unitRecords : Units pageEnv recordTy → List (RawId × Bytes)
  | .nil => []
  | .cons v rest =>
    let fields := tupleFields v
    ((scalarBits (headField fields)).toFin,
      unitBytes (vecUnits (headField (tailFields fields)))) :: unitRecords rest

def bodyVal (records : List (RawId × Bytes)) : Val pageEnv (.derived 0) :=
  .struct rfl (.cons (.vec (recordUnits records)) .nil)

def bodyRecords (v : Val pageEnv (.derived 0)) : List (RawId × Bytes) :=
  unitRecords (vecUnits (headField (structFields rfl v)))

inductive Payload
  | raw (body : Bytes)
  | zstd (dictLen rawLen : BitVec 32) (bytes : Bytes)
  deriving DecidableEq

def payloadVal : Payload → Val pageEnv (.derived 1)
  | .raw body => .variant rfl 0 rfl (.cons (.vec (byteUnits body)) .nil)
  | .zstd dictLen rawLen bytes => .variant rfl 1 rfl (.cons (.scalar dictLen)
      (.cons (.scalar rawLen) (.cons (.vec (byteUnits bytes)) .nil)))

def u32Bits (v : Val pageEnv (.scalar .u32)) : BitVec 32 := scalarBits v

def u64Bits (v : Val pageEnv (.scalar .u64)) : BitVec 64 := scalarBits v

def readPayload (v : Val pageEnv (.derived 1)) : Option Payload :=
  match (variantFields rfl 0 rfl v : Option (Fields pageEnv [.vec (.scalar .u8)])) with
  | some fields => some (.raw (unitBytes (vecUnits (headField fields))))
  | none =>
    (variantFields rfl 1 rfl v :
      Option (Fields pageEnv [.scalar .u32, .scalar .u32, .vec (.scalar .u8)])).map fun fields =>
        .zstd (u32Bits (headField fields)) (u32Bits (headField (tailFields fields)))
          (unitBytes (vecUnits (headField (tailFields (tailFields fields)))))

def envelopeVal (structHash : BitVec 64) (payload : Payload) : Val pageEnv (.derived 2) :=
  .struct rfl (.cons (.scalar structHash) (.cons (payloadVal payload) .nil))

@[simp] theorem unitRecords_recordUnits (records : List (RawId × Bytes)) :
    unitRecords (recordUnits records) = records := by
  induction records with
  | nil => rw [recordUnits, unitRecords]
  | cons record records ih =>
    obtain ⟨id, bytes⟩ := record
    rw [recordUnits, unitRecords, ih]
    simp only [tupleFields, headField, tailFields, scalarBits, vecUnits, unitBytes_byteUnits]

@[simp] theorem bodyRecords_bodyVal (records : List (RawId × Bytes)) :
    bodyRecords (bodyVal records) = records := unitRecords_recordUnits records

@[simp] theorem readPayload_payloadVal (payload : Payload) :
    readPayload (payloadVal payload) = some payload := by
  cases payload with
  | raw body => exact congrArg (fun b => some (Payload.raw b)) (unitBytes_byteUnits body)
  | zstd dictLen rawLen bytes =>
    exact congrArg (fun b => some (Payload.zstd dictLen rawLen b)) (unitBytes_byteUnits bytes)

theorem depth_bodyVal (records : List (RawId × Bytes)) : (bodyVal records).depth ≤ pageFuel := by
  have hunits : (recordUnits records).depth ≤ 3 := by
    induction records with
    | nil => exact Nat.zero_le _
    | cons record records ih =>
      obtain ⟨id, bytes⟩ := record
      have hbytes : (byteUnits bytes : Units pageEnv (.scalar .u8)).depth ≤ 1 :=
        depth_byteUnits bytes
      simp only [recordUnits, Units.depth, Val.depth, Fields.depth]
      omega
  simp only [bodyVal, Val.depth, Fields.depth, pageFuel]
  omega

theorem depth_envelopeVal (structHash : BitVec 64) (payload : Payload) :
    (envelopeVal structHash payload).depth ≤ pageFuel := by
  cases payload with
  | raw body =>
    have hbytes : (byteUnits body : Units pageEnv (.scalar .u8)).depth ≤ 1 := depth_byteUnits body
    simp only [envelopeVal, payloadVal, Val.depth, Fields.depth, pageFuel]
    omega
  | zstd dictLen rawLen bytes =>
    have hbytes : (byteUnits bytes : Units pageEnv (.scalar .u8)).depth ≤ 1 := depth_byteUnits bytes
    simp only [envelopeVal, payloadVal, Val.depth, Fields.depth, pageFuel]
    omega

theorem length_envelope_raw (structHash : BitVec 64) (body : Bytes) :
    (toWireChecked (envelopeVal structHash (.raw body))).length = 21 + body.length := by
  have hstack : pageEnv.stackSize (.derived 2) = 13 := rfl
  have hfields : pageEnv.stackSizes [.vec (.scalar .u8)] = 4 := rfl
  rw [length_toWireChecked, length_toWire, hstack, crcPrefixLen]
  simp only [envelopeVal, payloadVal, Val.heapSize, Fields.heapSize, heapSize_byteUnits, hfields]
  omega

theorem length_envelope_zstd (structHash : BitVec 64) (dictLen rawLen : BitVec 32) (bytes : Bytes) :
    (toWireChecked (envelopeVal structHash (.zstd dictLen rawLen bytes))).length =
      29 + bytes.length := by
  have hstack : pageEnv.stackSize (.derived 2) = 13 := rfl
  have hfields : pageEnv.stackSizes [.scalar .u32, .scalar .u32, .vec (.scalar .u8)] = 12 := rfl
  rw [length_toWireChecked, length_toWire, hstack, crcPrefixLen]
  simp only [envelopeVal, payloadVal, Val.heapSize, Fields.heapSize, heapSize_byteUnits, hfields]
  omega

end Layout

namespace Dictionary

def toBytes (dict : Dictionary) : Bytes :=
  framed (toWireChecked (.vec (byteUnits dict.buf) : Val pageEnv (.vec (.scalar .u8))))

def decode (payload : Bytes) : Except StorageError Dictionary :=
  match (fromWireChecked pageFuel (.vec (.scalar .u8)) payload :
    Except CheckedError (Val pageEnv (.vec (.scalar .u8)))) with
  | .error _ => .error (.corrupt "dictionary body")
  | .ok v => .ok ⟨unitBytes (vecUnits v)⟩

def fromBytes (buf : Bytes) : Except StorageError Dictionary := do
  decode (← unframe "dictionary length truncated" "dictionary length out of range" buf)

theorem fromBytes_toBytes {dict : Dictionary} (h : dict.len ≤ dictCap) (rest : Bytes) :
    fromBytes (dict.toBytes ++ rest) = .ok dict := by
  let v : Val pageEnv (.vec (.scalar .u8)) := .vec (byteUnits dict.buf)
  have hdepth : v.depth ≤ pageFuel := by
    have hbytes : (byteUnits dict.buf : Units pageEnv (.scalar .u8)).depth ≤ 1 :=
      depth_byteUnits dict.buf
    simp only [v, Val.depth, pageFuel]
    omega
  have hlen : (toWireChecked v).length < 2 ^ 32 := by
    have hstack : pageEnv.stackSize (.vec (.scalar .u8)) = 4 := rfl
    rw [length_toWireChecked, length_toWire, hstack, crcPrefixLen]
    simp only [v, Val.heapSize, heapSize_byteUnits]
    unfold len dictCap at h
    omega
  have hdecode := fromWireChecked_toWireChecked pageEnv_unitsSized
    (show WireTy.UnitsSized pageEnv (.vec (.scalar .u8)) from ⟨by decide, trivial⟩) v hlen hdepth
  rw [fromBytes, toBytes, unframe_framed _ _ hlen]
  change decode (toWireChecked v) = .ok dict
  rw [decode, hdecode]
  simp only [v, vecUnits, unitBytes_byteUnits]

-- What becomes of a dictionary: it takes samples, and comes back from its
-- padded image at a restart.
inductive Grows (dict : Dictionary) : Dictionary → Prop
  | refl : Grows dict dict
  | sample {later : Dictionary} (h : Grows dict later) (record : Bytes) :
      Grows dict (later.sample record)
  | reload {later back : Dictionary} (h : Grows dict later) (padding : Nat)
      (hread : fromBytes (later.toBytes ++ List.replicate padding 0) = .ok back) : Grows dict back

theorem Grows.prefix_and_cap {dict later : Dictionary} (hgrows : dict.Grows later)
    (h : dict.len ≤ dictCap) : dict.buf <+: later.buf ∧ later.len ≤ dictCap := by
  induction hgrows with
  | refl => exact ⟨List.prefix_rfl, h⟩
  | sample _ record ih => exact ⟨ih.1.trans (buf_sample _ record), len_sample_le ih.2 record⟩
  | reload _ padding hread ih =>
    rw [fromBytes_toBytes ih.2] at hread
    cases hread
    exact ih

theorem Grows.state_len {dict later : Dictionary} (hgrows : dict.Grows later)
    (h : dict.len ≤ dictCap) : later.state dict.len = some dict.buf := by
  obtain ⟨hpre, -⟩ := hgrows.prefix_and_cap h
  rw [state, len, if_pos hpre.length_le, ← List.prefix_iff_eq_take.mp hpre]

end Dictionary

section Page

-- Records by their raw ids, in ascending order.
structure SlotPage where
  structHash : BitVec 64
  records : Table RawId Bytes
  sorted : Ascending Prod.fst records

namespace SlotPage

def rawBody (page : SlotPage) : Bytes := toWire (bodyVal page.records)

def collect (structHash : BitVec 64) (entries : List (RawId × Bytes)) : SlotPage where
  structHash := structHash
  records := entries.foldl (fun t e => Table.put t e.1 e.2) []
  sorted := by
    suffices h : ∀ t : Table RawId Bytes, Ascending Prod.fst t →
        Ascending Prod.fst (entries.foldl (fun t e => Table.put t e.1 e.2) t) from h [] .nil
    induction entries with
    | nil => exact fun t ht => ht
    | cons e entries ih => exact fun t ht => ih _ (Table.ascending_put ht e.1 e.2)

theorem put_last {t : Table RawId Bytes} {e : RawId × Bytes} (h : ∀ x ∈ t, x.1 < e.1) :
    t.put e.1 e.2 = t ++ [e] := by
  obtain ⟨hbelow, habove⟩ := parts_of_lt h
  rw [Table.put, hbelow, habove]

theorem collect_records (page : SlotPage) : collect page.structHash page.records = page := by
  have hfold : ∀ (t entries : Table RawId Bytes), Ascending Prod.fst (t ++ entries) →
      entries.foldl (fun t e => Table.put t e.1 e.2) t = t ++ entries := by
    intro t entries
    induction entries generalizing t with
    | nil => exact fun _ => (List.append_nil t).symm
    | cons e entries ih =>
      intro h
      rw [List.foldl_cons, put_last fun x hx => h.append.2.2 x hx e List.mem_cons_self,
        ih (t ++ [e]) (by rwa [List.append_assoc, List.singleton_append])]
      rw [List.append_assoc, List.singleton_append]
  have hrecords := hfold [] page.records page.sorted
  rw [List.nil_append] at hrecords
  obtain ⟨structHash, records, sorted⟩ := page
  simp only [collect] at hrecords ⊢
  simp only [hrecords]

def readBody (structHash : BitVec 64) (raw : Bytes) : Except StorageError SlotPage :=
  match fromWire pageFuel (.derived 0) raw with
  | .ok body => .ok (collect structHash (bodyRecords body))
  | .error _ => .error (.corrupt "page body")

-- The sizes at which every length of the page fits its 32 bits.
def Small (page : SlotPage) : Prop := page.rawBody.length + 28 < 2 ^ 32

theorem readBody_rawBody {page : SlotPage} (hsmall : page.Small) :
    readBody page.structHash page.rawBody = .ok page := by
  have hsize := length_toWire (bodyVal page.records)
  have hread := fromWire_toWire ((bodyVal page.records).reads pageEnv_unitsSized
    (show WireTy.UnitsSized pageEnv (.derived 0) from trivial)
    (by unfold Small rawBody at hsmall; omega) pageFuel (depth_bodyVal _))
  rw [readBody, rawBody, hread]
  simp only [bodyRecords_bodyVal, collect_records]

theorem toNat_dictLen {dict : Dictionary} (h : dict.len ≤ dictCap) :
    (BitVec.ofNat 32 dict.len).toNat = dict.len := by
  rw [BitVec.toNat_ofNat, Nat.mod_eq_of_lt (h.trans_lt (by decide))]

theorem toNat_rawLen {page : SlotPage} (hsmall : page.Small) :
    (BitVec.ofNat 32 page.rawBody.length).toNat = page.rawBody.length := by
  unfold Small at hsmall
  rw [BitVec.toNat_ofNat, Nat.mod_eq_of_lt (by omega)]

variable [Zstd]

-- A body that does not shrink is stored as it is. Lengths are cast to 32 bits.
def payloadOf (page : SlotPage) (dict : Dictionary) (compress : Bool) : Payload :=
  if compress then
    let frame := Zstd.compress dict.buf page.rawBody
    if frame.length < page.rawBody.length then
      .zstd (BitVec.ofNat 32 dict.len) (BitVec.ofNat 32 page.rawBody.length) frame
    else .raw page.rawBody
  else .raw page.rawBody

def envelope (page : SlotPage) (dict : Dictionary) (compress : Bool) : Bytes :=
  toWireChecked (envelopeVal page.structHash (page.payloadOf dict compress))

def toBytes (page : SlotPage) (dict : Dictionary) (compress : Bool) : Bytes :=
  framed (page.envelope dict compress)

def openPayload (dict : Dictionary) : Payload → Except StorageError Bytes
  | .raw raw => .ok raw
  | .zstd dictLen rawLen bytes =>
    match dict.state dictLen.toNat with
    | none => .error (.corrupt "page dictionary state unknown")
    | some state =>
      match Zstd.decompress state bytes rawLen.toNat with
      | none => .error (.corrupt "page decompress")
      | some raw => .ok raw

def readEnvelope (dict : Dictionary) (v : Val pageEnv (.derived 2)) : Except StorageError SlotPage :=
  match readPayload (headField (tailFields (structFields rfl v))) with
  | none => .error (.corrupt "page envelope")
  | some payload => do
      let raw ← openPayload dict payload
      readBody (u64Bits (headField (structFields rfl v))) raw

def decode (dict : Dictionary) (payload : Bytes) : Except StorageError SlotPage :=
  match fromWireChecked pageFuel (.derived 2) payload with
  | .error _ => .error (.corrupt "page envelope")
  | .ok envelope => readEnvelope dict envelope

def fromBytes (buf : Bytes) (dict : Dictionary) : Except StorageError SlotPage := do
  decode dict (← unframe "page length truncated" "page length out of range" buf)

theorem length_envelope_lt {page : SlotPage} (hsmall : page.Small) (dict : Dictionary)
    (compress : Bool) : (page.envelope dict compress).length < 2 ^ 32 := by
  unfold Small at hsmall
  have hraw := length_envelope_raw page.structHash page.rawBody
  unfold envelope payloadOf
  split
  · simp only
    split
    · rename_i hlt
      rw [length_envelope_zstd]
      omega
    · omega
  · omega

theorem readEnvelope_envelopeVal (dict : Dictionary) (structHash : BitVec 64) (payload : Payload) :
    readEnvelope dict (envelopeVal structHash payload) =
      (openPayload dict payload).bind (readBody structHash) := by
  have hpayload : headField (tailFields (structFields rfl (envelopeVal structHash payload))) =
      payloadVal payload := rfl
  rw [readEnvelope, hpayload, readPayload_payloadVal]
  rfl

-- A padded image against any dictionary: its payload is opened and read.
theorem fromBytes_toBytes_eq {page : SlotPage} (hsmall : page.Small) (dict later : Dictionary)
    (compress : Bool) (padding : Nat) :
    fromBytes (page.toBytes dict compress ++ List.replicate padding 0) later =
      (openPayload later (page.payloadOf dict compress)).bind (readBody page.structHash) := by
  have hlen := length_envelope_lt hsmall dict compress
  have hdecode : fromWireChecked pageFuel (.derived 2) (page.envelope dict compress) =
      .ok (envelopeVal page.structHash (page.payloadOf dict compress)) :=
    fromWireChecked_toWireChecked pageEnv_unitsSized
      (show WireTy.UnitsSized pageEnv (.derived 2) from trivial) _ hlen (depth_envelopeVal _ _)
  rw [fromBytes, toBytes, unframe_framed _ _ hlen]
  change decode later (page.envelope dict compress) = _
  rw [decode, hdecode]
  exact readEnvelope_envelopeVal later page.structHash (page.payloadOf dict compress)

theorem openPayload_state {page : SlotPage} (hsmall : page.Small) {dict later : Dictionary}
    (hdict : dict.len ≤ dictCap) (hstate : later.state dict.len = some dict.buf) (compress : Bool) :
    openPayload later (page.payloadOf dict compress) = .ok page.rawBody := by
  unfold payloadOf
  split
  · simp only
    split
    · simp only [openPayload, toNat_dictLen hdict, toNat_rawLen hsmall, hstate,
        Zstd.decompress_compress]
    · rfl
  · rfl

def Compressed (page : SlotPage) (dict : Dictionary) (compress : Bool) : Prop :=
  compress = true ∧ (Zstd.compress dict.buf page.rawBody).length < page.rawBody.length

theorem payloadOf_compressed {page : SlotPage} {dict : Dictionary} {compress : Bool}
    (h : page.Compressed dict compress) :
    page.payloadOf dict compress = .zstd (BitVec.ofNat 32 dict.len)
      (BitVec.ofNat 32 page.rawBody.length) (Zstd.compress dict.buf page.rawBody) := by
  unfold payloadOf
  rw [if_pos h.1]
  exact if_pos h.2

theorem openPayload_short {page : SlotPage} {dict other : Dictionary} {compress : Bool}
    (hdict : dict.len ≤ dictCap) (h : page.Compressed dict compress)
    (hshort : other.len < dict.len) :
    openPayload other (page.payloadOf dict compress) =
      .error (.corrupt "page dictionary state unknown") := by
  have hnone : other.state dict.len = none := by
    unfold Dictionary.state
    exact if_neg (Nat.not_le.mpr hshort)
  rw [payloadOf_compressed h, openPayload, toNat_dictLen hdict, hnone]

end SlotPage

end Page

section RoundTrip

variable [Zstd]

-- A page comes back against every later state of its dictionary, whatever the padding,
-- and is refused by one that never grew as long.
theorem page_round_trip (page : SlotPage) (hsmall : page.Small) {dict : Dictionary}
    (hdict : Dictionary.new.Grows dict) (compress : Bool) (padding : Nat) :
    (∀ later, dict.Grows later →
      SlotPage.fromBytes (page.toBytes dict compress ++ List.replicate padding 0) later = .ok page) ∧
    (∀ other : Dictionary, page.Compressed dict compress → other.len < dict.len →
      SlotPage.fromBytes (page.toBytes dict compress ++ List.replicate padding 0) other =
        .error (.corrupt "page dictionary state unknown")) := by
  obtain ⟨-, hcap⟩ := hdict.prefix_and_cap (Nat.zero_le _)
  refine ⟨fun later hlater => ?_, fun other hcompressed hshort => ?_⟩
  · rw [SlotPage.fromBytes_toBytes_eq hsmall, SlotPage.openPayload_state hsmall hcap (hlater.state_len hcap)]
    exact SlotPage.readBody_rawBody hsmall
  · rw [SlotPage.fromBytes_toBytes_eq hsmall, SlotPage.openPayload_short hcap hcompressed hshort]
    rfl

end RoundTrip

section Foreign

@[reducible] def echo : Zstd where
  compress dict raw := if raw = dict.take raw.length then [0] else 1 :: raw
  decompress dict frame capacity :=
    match frame with
    | [0] => some (dict.take capacity)
    | 1 :: raw => some raw
    | _ => none
  decompress_compress dict raw := by
    by_cases h : raw = dict.take raw.length
    · simp only [if_pos h]
      exact congrArg some h.symm
    · simp only [if_neg h]

def leaf (byte : UInt8) : SlotPage := .collect 7 [(5, [byte])]

theorem length_rawBody_leaf (byte : UInt8) : (leaf byte).rawBody.length = 25 := by
  have hstack : pageEnv.stackSize (.derived 0) = 4 := rfl
  rw [SlotPage.rawBody, length_toWire, hstack]
  rfl

theorem small_leaf (byte : UInt8) : (leaf byte).Small := by
  rw [SlotPage.Small, length_rawBody_leaf]
  decide

theorem grows_leaf (byte : UInt8) : Dictionary.new.Grows ⟨(leaf byte).rawBody⟩ := by
  have hsample : Dictionary.new.sample (leaf byte).rawBody = ⟨(leaf byte).rawBody⟩ := by
    rw [Dictionary.sample, if_neg (by decide), length_rawBody_leaf]
    exact congrArg Dictionary.mk (List.take_of_length_le (by rw [length_rawBody_leaf]; decide))
  exact hsample ▸ .sample .refl _

theorem echo_compress_leaf (byte : UInt8) :
    echo.compress (leaf byte).rawBody (leaf byte).rawBody = [0] :=
  if_pos (List.take_length).symm

theorem compressed_leaf (byte : UInt8) :
    letI := echo
    (leaf byte).Compressed ⟨(leaf byte).rawBody⟩ true := by
  refine ⟨rfl, ?_⟩
  change (echo.compress (leaf byte).rawBody (leaf byte).rawBody).length < _
  rw [echo_compress_leaf, length_rawBody_leaf]
  decide

theorem page_round_trip_leaf :
    letI := echo
    SlotPage.fromBytes ((leaf 1).toBytes ⟨(leaf 1).rawBody⟩ true ++ List.replicate 9 0)
      (Dictionary.sample ⟨(leaf 1).rawBody⟩ [3]) = .ok (leaf 1) ∧
    SlotPage.fromBytes ((leaf 1).toBytes ⟨(leaf 1).rawBody⟩ true ++ List.replicate 9 0)
      Dictionary.new = .error (.corrupt "page dictionary state unknown") := by
  let _ := echo
  have htrip := page_round_trip (leaf 1) (small_leaf 1) (grows_leaf 1) true 9
  refine ⟨htrip.1 _ (.sample .refl [3]), htrip.2 _ (compressed_leaf 1) ?_⟩
  change 0 < (leaf 1).rawBody.length
  rw [length_rawBody_leaf]
  decide

-- The stamp is a length: against another dictionary as long, the page is read as one it
-- never was.
theorem foreign_dictionary_misread :
    ∃ (_ : Zstd) (page other : SlotPage) (dict foreign : Dictionary),
      page.Small ∧ Dictionary.new.Grows dict ∧ Dictionary.new.Grows foreign ∧
      page.Compressed dict true ∧ foreign.state dict.len ≠ some dict.buf ∧
      page ≠ other ∧ SlotPage.fromBytes (page.toBytes dict true) foreign = .ok other := by
  let _ := echo
  have hne : leaf 1 ≠ leaf 2 := fun h => absurd (congrArg SlotPage.records h) (by decide)
  have hstate : (⟨(leaf 2).rawBody⟩ : Dictionary).state (leaf 1).rawBody.length =
      some (leaf 2).rawBody := by
    rw [Dictionary.state, length_rawBody_leaf, length_rawBody_leaf, if_pos le_rfl,
      List.take_of_length_le (length_rawBody_leaf 2).le]
  have hopen : SlotPage.openPayload ⟨(leaf 2).rawBody⟩
      ((leaf 1).payloadOf ⟨(leaf 1).rawBody⟩ true) = .ok (leaf 2).rawBody := by
    have hcap : Dictionary.len ⟨(leaf 1).rawBody⟩ ≤ dictCap :=
      ((grows_leaf 1).prefix_and_cap (Nat.zero_le _)).2
    have hread : echo.decompress (leaf 2).rawBody [0] (leaf 1).rawBody.length =
        some (leaf 2).rawBody := by
      rw [length_rawBody_leaf, ← length_rawBody_leaf 2]
      exact congrArg some List.take_length
    rw [SlotPage.payloadOf_compressed (compressed_leaf 1), SlotPage.openPayload,
      SlotPage.toNat_dictLen hcap, SlotPage.toNat_rawLen (small_leaf 1), Dictionary.len, hstate]
    simp only [echo_compress_leaf, hread]
  refine ⟨echo, leaf 1, leaf 2, ⟨(leaf 1).rawBody⟩, ⟨(leaf 2).rawBody⟩, small_leaf 1, grows_leaf 1,
    grows_leaf 2, compressed_leaf 1, ?_, hne, ?_⟩
  · intro h
    have hbody : (leaf 2).rawBody = (leaf 1).rawBody :=
      Option.some.inj (hstate.symm.trans h)
    have hpage := SlotPage.readBody_rawBody (small_leaf 2)
    rw [hbody] at hpage
    exact hne (Except.ok.inj ((SlotPage.readBody_rawBody (small_leaf 1)).symm.trans hpage))
  · have heq := SlotPage.fromBytes_toBytes_eq (small_leaf 1) ⟨(leaf 1).rawBody⟩
      ⟨(leaf 2).rawBody⟩ true 0
    rw [List.replicate_zero, List.append_nil, hopen] at heq
    rw [heq]
    exact SlotPage.readBody_rawBody (small_leaf 2)

end Foreign

end WaveDb.Storage.PageBytes
