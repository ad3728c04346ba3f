import WaveDb.Lib.LittleEndian

namespace WaveDb.Wire

open WaveDb.Lib (leBytes ofLeBytes)

inductive Error
  | unexpectedEof
  | utf8
  | invalidChar (scalar : Nat)
  | invalidTag (tag : UInt8)
  | invalidBool (byte : UInt8)
  deriving DecidableEq, Repr

-- A decode stops with a wire error. A type may mention itself below a `Vec`,
-- so decoding is given fuel, and `fuel` says that it was not enough.
inductive Stop
  | error (e : Error)
  | fuel
  deriving DecidableEq, Repr

structure Cursor where
  buf : List UInt8
  pos : Nat
  deriving DecidableEq, Repr

namespace Cursor

def new (buf : List UInt8) : Cursor := ⟨buf, 0⟩

def remaining (c : Cursor) : Nat := c.buf.length - c.pos

def take (c : Cursor) (n : Nat) : Except Stop (List UInt8 × Cursor) :=
  if c.remaining < n then .error (.error .unexpectedEof)
  else .ok ((c.buf.drop c.pos).take n, { c with pos := c.pos + n })

def u8 (c : Cursor) : Except Stop (UInt8 × Cursor) := do
  let (bytes, c) ← c.take 1
  return (bytes.headD 0, c)

def u32 (c : Cursor) : Except Stop (Nat × Cursor) := do
  let (bytes, c) ← c.take 4
  return (ofLeBytes bytes, c)

end Cursor

-- The fixed-width types of `wire_le!`. Values are their bits, which is how
-- floats are compared.
inductive Scalar
  | u8 | u16 | u32 | u64 | u128
  | i8 | i16 | i32 | i64 | i128
  | f32 | f64
  deriving DecidableEq, Repr

def Scalar.size : Scalar → Nat
  | u8 | i8 => 1
  | u16 | i16 => 2
  | u32 | i32 | f32 => 4
  | u64 | i64 | f64 => 8
  | u128 | i128 => 16

-- The types with a wire layout. The unit type is the empty tuple, and a
-- derived struct or enum is named, so that declarations can be recursive.
inductive WireTy
  | scalar (s : Scalar)
  | bool
  | char
  | string
  | vec (elem : WireTy)
  | option (inner : WireTy)
  | array (elem : WireTy) (n : Nat)
  | tuple (fields : List WireTy)
  | derived (name : Nat)

inductive Variant
  | unit
  | fields (tys : List WireTy)

def Variant.hasFields : Variant → Bool
  | .unit => false
  | .fields _ => true

-- `expand_enum` refuses more than 256 variants, since the tag is a `u8`.
inductive Decl
  | struct (fields : List WireTy)
  | enum (variants : List Variant) (h : variants.length ≤ 256)

section StackSize

variable (size : Nat → Nat)

mutual

def WireTy.stackSizeIn : WireTy → Nat
  | .scalar s => s.size
  | .bool => 1
  | .char => 4
  | .string => 4
  | .vec _ => 4
  | .option _ => 1
  | .array elem n => n * elem.stackSizeIn
  | .tuple fields => stackSizesIn fields
  | .derived name => size name

def stackSizesIn : List WireTy → Nat
  | [] => 0
  | ty :: tys => ty.stackSizeIn + stackSizesIn tys

end

def Decl.stackSizeIn : Decl → Nat
  | .struct fields => stackSizesIn size fields
  | .enum variants _ => if variants.any Variant.hasFields then 1 + 4 else 1

end StackSize

-- The derived types in scope. `size` holds the `STACK_SIZE` constants, which
-- refer to each other; a program compiles only when they have a solution.
structure Env where
  decl : Nat → Decl
  size : Nat → Nat
  size_eq : ∀ name, size name = (decl name).stackSizeIn size

def Env.stackSize (Γ : Env) (ty : WireTy) : Nat := ty.stackSizeIn Γ.size

def Env.stackSizes (Γ : Env) (tys : List WireTy) : Nat := stackSizesIn Γ.size tys

-- Values carry their type, and a derived value its declaration.
mutual

inductive Val (Γ : Env) : WireTy → Type
  | scalar {s : Scalar} (bits : BitVec (8 * s.size)) : Val Γ (.scalar s)
  | bool (b : Bool) : Val Γ .bool
  | char (c : Char) : Val Γ .char
  | string (s : String) : Val Γ .string
  | vec {elem : WireTy} (units : Units Γ elem) : Val Γ (.vec elem)
  | none {inner : WireTy} : Val Γ (.option inner)
  | some {inner : WireTy} (v : Val Γ inner) : Val Γ (.option inner)
  | array {elem : WireTy} {n : Nat} (elems : Fields Γ (List.replicate n elem)) :
      Val Γ (.array elem n)
  | tuple {tys : List WireTy} (fields : Fields Γ tys) : Val Γ (.tuple tys)
  | struct {name : Nat} {tys : List WireTy} (hdecl : Γ.decl name = .struct tys)
      (fields : Fields Γ tys) : Val Γ (.derived name)
  | unit {name : Nat} {variants : List Variant} {h : variants.length ≤ 256}
      (hdecl : Γ.decl name = .enum variants h) (tag : Nat)
      (htag : variants[tag]? = Option.some .unit) : Val Γ (.derived name)
  | variant {name : Nat} {variants : List Variant} {h : variants.length ≤ 256}
      {tys : List WireTy} (hdecl : Γ.decl name = .enum variants h) (tag : Nat)
      (htag : variants[tag]? = Option.some (.fields tys)) (payload : Fields Γ tys) :
      Val Γ (.derived name)

inductive Fields (Γ : Env) : List WireTy → Type
  | nil : Fields Γ []
  | cons {ty : WireTy} {tys : List WireTy} (v : Val Γ ty) (rest : Fields Γ tys) :
      Fields Γ (ty :: tys)

inductive Units (Γ : Env) : WireTy → Type
  | nil {elem : WireTy} : Units Γ elem
  | cons {elem : WireTy} (v : Val Γ elem) (rest : Units Γ elem) : Units Γ elem

end

variable {Γ : Env}

mutual

def Val.heapSize : {ty : WireTy} → Val Γ ty → Nat
  | _, .scalar _ => 0
  | _, .bool _ => 0
  | _, .char _ => 0
  | _, .string s => s.utf8ByteSize
  | _, .vec units => units.heapSize
  | _, .none => 0
  | .option inner, .some v => Γ.stackSize inner + v.heapSize
  | _, .array elems => elems.heapSize
  | _, .tuple fields => fields.heapSize
  | _, .struct _ fields => fields.heapSize
  | _, .unit _ _ _ => 0
  | _, @Val.variant _ _ _ _ tys _ _ _ payload => Γ.stackSizes tys + payload.heapSize

def Fields.heapSize : {tys : List WireTy} → Fields Γ tys → Nat
  | _, .nil => 0
  | _, .cons v rest => v.heapSize + rest.heapSize

-- Each element of a `Vec` is a unit: its stack bytes, then its heap bytes.
def Units.heapSize : {elem : WireTy} → Units Γ elem → Nat
  | _, .nil => 0
  | elem, .cons v rest => Γ.stackSize elem + v.heapSize + rest.heapSize

end

-- The tag, with the payload length when some variant of the enum carries fields.
def encodeTag (variants : List Variant) (tag heapSize : Nat) : List UInt8 :=
  if variants.any Variant.hasFields then UInt8.ofNat tag :: leBytes 4 heapSize
  else [UInt8.ofNat tag]

mutual

def Val.encodeStack : {ty : WireTy} → Val Γ ty → List UInt8
  | .scalar s, .scalar bits => leBytes s.size bits.toNat
  | _, .bool b => [if b then 1 else 0]
  | _, .char c => leBytes 4 c.toNat
  | _, .string s => leBytes 4 s.utf8ByteSize
  | _, .vec units => leBytes 4 units.heapSize
  | _, .none => [0]
  | _, .some _ => [1]
  | _, .array elems => elems.encodeStack
  | _, .tuple fields => fields.encodeStack
  | _, .struct _ fields => fields.encodeStack
  | _, @Val.unit _ _ variants _ _ tag _ => encodeTag variants tag 0
  | _, @Val.variant _ _ variants _ tys _ tag _ payload =>
    encodeTag variants tag (Γ.stackSizes tys + payload.heapSize)

def Fields.encodeStack : {tys : List WireTy} → Fields Γ tys → List UInt8
  | _, .nil => []
  | _, .cons v rest => v.encodeStack ++ rest.encodeStack

end

mutual

def Val.encodeHeap : {ty : WireTy} → Val Γ ty → List UInt8
  | _, .scalar _ => []
  | _, .bool _ => []
  | _, .char _ => []
  | _, .string s => s.toUTF8.data.toList
  | _, .vec units => units.encodeHeap
  | _, .none => []
  | _, .some v => v.encodeStack ++ v.encodeHeap
  | _, .array elems => elems.encodeHeap
  | _, .tuple fields => fields.encodeHeap
  | _, .struct _ fields => fields.encodeHeap
  | _, .unit _ _ _ => []
  | _, .variant _ _ _ payload => payload.encodeStack ++ payload.encodeHeap

def Fields.encodeHeap : {tys : List WireTy} → Fields Γ tys → List UInt8
  | _, .nil => []
  | _, .cons v rest => v.encodeHeap ++ rest.encodeHeap

def Units.encodeHeap : {elem : WireTy} → Units Γ elem → List UInt8
  | _, .nil => []
  | _, .cons v rest => v.encodeStack ++ v.encodeHeap ++ rest.encodeHeap

end

def toWire {ty : WireTy} (v : Val Γ ty) : List UInt8 := v.encodeStack ++ v.encodeHeap

def charFromU32 (scalar : Nat) : Option Char :=
  if h : scalar.isValidChar then some (Char.ofNatAux scalar h) else none

section Decode

-- How a nested value is decoded: `decode` itself, one level of fuel down.
variable (nested : (ty : WireTy) → Cursor → Cursor → Except Stop (Val Γ ty × Cursor × Cursor))

def decodeFields : (tys : List WireTy) → Cursor → Cursor →
    Except Stop (Fields Γ tys × Cursor × Cursor)
  | [], stack, heap => return (.nil, stack, heap)
  | ty :: tys, stack, heap => do
      let (v, stack, heap) ← nested ty stack heap
      let (rest, stack, heap) ← decodeFields tys stack heap
      return (.cons v rest, stack, heap)

-- The `while cur < region.len()` loop of `Vec`. A round that consumes nothing
-- leaves the loop where it was, so running out of rounds is looping for ever.
def decodeUnits (elem : WireTy) (region : List UInt8) : Nat → Nat → Except Stop (Units Γ elem)
  | 0, cur => if cur < region.length then .error .fuel else return .nil
  | rounds + 1, cur =>
    if cur < region.length then
      if cur + Γ.stackSize elem > region.length then .error (.error .unexpectedEof)
      else do
        let es := Cursor.new ((region.drop cur).take (Γ.stackSize elem))
        let eh := Cursor.new (region.drop (cur + Γ.stackSize elem))
        let (v, _, eh) ← nested elem es eh
        let rest ← decodeUnits elem region rounds (cur + (Γ.stackSize elem + eh.pos))
        return .cons v rest
    else return .nil

-- The match on the tag. A field-less enum has only the `unit` arms.
def decodeVariant {name : Nat} {variants : List Variant} {h : variants.length ≤ 256}
    (hdecl : Γ.decl name = .enum variants h) (tag : UInt8) (payload : List UInt8) :
    Except Stop (Val Γ (.derived name)) :=
  match htag : variants[tag.toNat]? with
  | none => .error (.error (.invalidTag tag))
  | some .unit => return .unit hdecl tag.toNat htag
  | some (.fields tys) =>
    if payload.length < Γ.stackSizes tys then .error (.error .unexpectedEof)
    else do
      let sc := Cursor.new (payload.take (Γ.stackSizes tys))
      let hc := Cursor.new (payload.drop (Γ.stackSizes tys))
      let (fields, _, _) ← decodeFields nested tys sc hc
      return .variant hdecl tag.toNat htag fields

def decodeDerived (name : Nat) (stack heap : Cursor) :
    Except Stop (Val Γ (.derived name) × Cursor × Cursor) :=
  match hdecl : Γ.decl name with
  | .struct tys => do
      let (fields, stack, heap) ← decodeFields nested tys stack heap
      return (.struct hdecl fields, stack, heap)
  | .enum variants _ =>
    if variants.any Variant.hasFields then do
      let (tag, stack) ← stack.u8
      let (payloadLen, stack) ← stack.u32
      let (payload, heap) ← heap.take payloadLen
      let v ← decodeVariant nested hdecl tag payload
      return (v, stack, heap)
    else do
      let (tag, stack) ← stack.u8
      let v ← decodeVariant nested hdecl tag []
      return (v, stack, heap)

end Decode

def decode : Nat → (ty : WireTy) → Cursor → Cursor → Except Stop (Val Γ ty × Cursor × Cursor)
  | 0, _, _, _ => .error .fuel
  | _ + 1, .scalar s, stack, heap => do
      let (bytes, stack) ← stack.take s.size
      return (.scalar (BitVec.ofNat _ (ofLeBytes bytes)), stack, heap)
  | _ + 1, .bool, stack, heap => do
      let (byte, stack) ← stack.u8
      if byte = 0 then return (.bool false, stack, heap)
      else if byte = 1 then return (.bool true, stack, heap)
      else .error (.error (.invalidBool byte))
  | _ + 1, .char, stack, heap => do
      let (scalar, stack) ← stack.u32
      match charFromU32 scalar with
      | some c => return (.char c, stack, heap)
      | none => .error (.error (.invalidChar scalar))
  | _ + 1, .string, stack, heap => do
      let (len, stack) ← stack.u32
      let (bytes, heap) ← heap.take len
      match String.fromUTF8? ⟨bytes.toArray⟩ with
      | some s => return (.string s, stack, heap)
      | none => .error (.error .utf8)
  | fuel + 1, .vec elem, stack, heap => do
      let (regionLen, stack) ← stack.u32
      let (region, heap) ← heap.take regionLen
      let units ← decodeUnits (decode fuel) elem region region.length 0
      return (.vec units, stack, heap)
  | fuel + 1, .option inner, stack, heap => do
      let (flag, stack) ← stack.u8
      if flag = 0 then return (.none, stack, heap)
      else
        let (tStack, heap) ← heap.take (Γ.stackSize inner)
        let (v, _, heap) ← decode fuel inner (Cursor.new tStack) heap
        return (.some v, stack, heap)
  | fuel + 1, .array elem n, stack, heap => do
      let (elems, stack, heap) ← decodeFields (decode fuel) (List.replicate n elem) stack heap
      return (.array elems, stack, heap)
  | fuel + 1, .tuple tys, stack, heap => do
      let (fields, stack, heap) ← decodeFields (decode fuel) tys stack heap
      return (.tuple fields, stack, heap)
  | fuel + 1, .derived name, stack, heap => decodeDerived (decode fuel) name stack heap

def fromWire (fuel : Nat) (ty : WireTy) (bytes : List UInt8) : Except Stop (Val Γ ty) :=
  if bytes.length < Γ.stackSize ty then .error (.error .unexpectedEof)
  else do
    let sc := Cursor.new (bytes.take (Γ.stackSize ty))
    let hc := Cursor.new (bytes.drop (Γ.stackSize ty))
    let (v, _, _) ← decode fuel ty sc hc
    return v

end WaveDb.Wire
