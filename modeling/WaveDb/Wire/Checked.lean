import WaveDb.Wire.RoundTrip

-- The wire form behind a checksum.
namespace WaveDb.Wire

open WaveDb.Lib

section Crc

def crcBit (c : BitVec 32) : BitVec 32 :=
  if c.getLsbD 0 then (c >>> 1) ^^^ 0xEDB88320#32 else c >>> 1

def crcByte (c : BitVec 32) (byte : UInt8) : BitVec 32 :=
  Nat.iterate crcBit 8 (c ^^^ byte.toBitVec.setWidth 32)

def crc32 (bytes : List UInt8) : Nat := (~~~bytes.foldl crcByte 0xFFFFFFFF#32).toNat

-- The check value of the standard: the nine digits.
example : crc32 [49, 50, 51, 52, 53, 54, 55, 56, 57] = 0xCBF43926 := by decide +kernel

theorem crc32_lt (bytes : List UInt8) : crc32 bytes < 256 ^ 4 := BitVec.isLt _

end Crc

inductive CheckedError
  | stop (stop : Stop)
  | crcMismatch (stored computed : Nat)
  deriving DecidableEq, Repr

def crcPrefixLen : Nat := 4

variable {Γ : Env} {ty : WireTy}

def toWireChecked (v : Val Γ ty) : List UInt8 :=
  leBytes crcPrefixLen (crc32 (toWire v)) ++ toWire v

def fromWireChecked (fuel : Nat) (ty : WireTy) (bytes : List UInt8) :
    Except CheckedError (Val Γ ty) :=
  if bytes.length < crcPrefixLen then .error (.stop (.error .unexpectedEof))
  else
    let stored := ofLeBytes (bytes.take crcPrefixLen)
    let computed := crc32 (bytes.drop crcPrefixLen)
    if stored ≠ computed then .error (.crcMismatch stored computed)
    else (fromWire fuel ty (bytes.drop crcPrefixLen)).mapError .stop

@[simp] theorem length_toWireChecked (v : Val Γ ty) :
    (toWireChecked v).length = crcPrefixLen + (toWire v).length := by
  simp [toWireChecked]

theorem fromWireChecked_toWireChecked (hΓ : Γ.UnitsSized) (hty : ty.UnitsSized Γ) (v : Val Γ ty)
    (hfit : (toWireChecked v).length < 2 ^ 32) {fuel : Nat} (hfuel : v.depth ≤ fuel) :
    fromWireChecked fuel ty (toWireChecked v) = .ok v := by
  rw [length_toWireChecked] at hfit
  have hsize := length_toWire v
  have hread := fromWire_toWire (v.reads hΓ hty (by omega) fuel hfuel)
  have hlen : ¬(toWireChecked v).length < crcPrefixLen := by
    rw [length_toWireChecked]
    omega
  have htake : (toWireChecked v).take crcPrefixLen = leBytes crcPrefixLen (crc32 (toWire v)) := by
    rw [toWireChecked, List.take_left' (length_leBytes _ _)]
  have hdrop : (toWireChecked v).drop crcPrefixLen = toWire v := by
    rw [toWireChecked, List.drop_left' (length_leBytes _ _)]
  have hcrc : ofLeBytes (leBytes crcPrefixLen (crc32 (toWire v))) = crc32 (toWire v) :=
    ofLeBytes_leBytes_of_lt _ _ (crc32_lt _)
  rw [fromWireChecked, if_neg hlen]
  simp only [htake, hdrop, hcrc, ne_eq, not_true, if_false, hread]
  rfl

end WaveDb.Wire
