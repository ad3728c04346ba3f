import WaveDb.Wire.RoundTrip

-- Taking wire values apart, and byte vectors.
namespace WaveDb.Wire

variable {Γ : Env}

section Parts

variable {ty elem : WireTy} {tys : List WireTy} {name : Nat}

def headField : Fields Γ (ty :: tys) → Val Γ ty
  | .cons v _ => v

def tailFields : Fields Γ (ty :: tys) → Fields Γ tys
  | .cons _ rest => rest

def scalarBits {s : Scalar} : Val Γ (.scalar s) → BitVec (8 * s.size)
  | .scalar bits => bits

def vecUnits : Val Γ (.vec elem) → Units Γ elem
  | .vec units => units

def tupleFields : Val Γ (.tuple tys) → Fields Γ tys
  | .tuple fields => fields

def structFields (hdecl : Γ.decl name = .struct tys) : Val Γ (.derived name) → Fields Γ tys
  | .struct h fields => (Decl.struct.inj (h.symm.trans hdecl)) ▸ fields
  | .unit h _ _ => nomatch h.symm.trans hdecl
  | .variant h _ _ _ => nomatch h.symm.trans hdecl

theorem variant_fields_eq {decl : Decl} {variants variants' : List Variant}
    {hlen : variants.length ≤ 256} {hlen' : variants'.length ≤ 256} {tag tag' : Nat}
    {tys' : List WireTy} (h' : decl = .enum variants' hlen') (h : decl = .enum variants hlen)
    (heq : tag' = tag) (htag' : variants'[tag']? = some (.fields tys'))
    (htag : variants[tag]? = some (.fields tys)) : tys' = tys := by
  cases h'.symm.trans h
  cases heq
  cases htag'.symm.trans htag
  rfl

def variantFields {variants : List Variant} {hlen : variants.length ≤ 256}
    (hdecl : Γ.decl name = .enum variants hlen) (tag : Nat)
    (htag : variants[tag]? = some (.fields tys)) : Val Γ (.derived name) → Option (Fields Γ tys)
  | .variant h tag' htag' payload =>
    if heq : tag' = tag then
      some (variant_fields_eq h hdecl heq htag' htag ▸ payload)
    else none
  | _ => none

end Parts

section Bytes

def byteUnits : List UInt8 → Units Γ (.scalar .u8)
  | [] => .nil
  | byte :: bytes => .cons (.scalar byte.toBitVec) (byteUnits bytes)

def unitBytes : Units Γ (.scalar .u8) → List UInt8
  | .nil => []
  | .cons v rest => ⟨scalarBits v⟩ :: unitBytes rest

@[simp] theorem unitBytes_byteUnits (bytes : List UInt8) :
    unitBytes (byteUnits bytes : Units Γ (.scalar .u8)) = bytes := by
  induction bytes with
  | nil => rw [byteUnits, unitBytes]
  | cons byte bytes ih =>
    rw [byteUnits, unitBytes, ih]
    rfl

theorem heapSize_byteUnits (bytes : List UInt8) :
    (byteUnits bytes : Units Γ (.scalar .u8)).heapSize = bytes.length := by
  induction bytes with
  | nil => rfl
  | cons byte bytes ih =>
    have hsize : Γ.stackSize (.scalar .u8) = 1 := rfl
    simp only [byteUnits, Units.heapSize, Val.heapSize, ih, hsize, List.length_cons]
    omega

theorem depth_byteUnits (bytes : List UInt8) :
    (byteUnits bytes : Units Γ (.scalar .u8)).depth ≤ 1 := by
  induction bytes with
  | nil => exact Nat.zero_le _
  | cons byte bytes ih =>
    simp only [byteUnits, Units.depth, Val.depth]
    omega

end Bytes

end WaveDb.Wire
