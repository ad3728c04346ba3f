import WaveDb.Wire.Basic

namespace WaveDb.Wire

open WaveDb.Lib

namespace Cursor

def rest (c : Cursor) : List UInt8 := c.buf.drop c.pos

def skip (c : Cursor) (n : Nat) : Cursor := { c with pos := c.pos + n }

@[simp] theorem rest_new (buf : List UInt8) : (new buf).rest = buf := rfl

@[simp] theorem skip_pos (c : Cursor) (n : Nat) : (c.skip n).pos = c.pos + n := rfl

@[simp] theorem skip_buf (c : Cursor) (n : Nat) : (c.skip n).buf = c.buf := rfl

@[simp] theorem pos_new (buf : List UInt8) : (new buf).pos = 0 := rfl

@[simp] theorem skip_zero (c : Cursor) : c.skip 0 = c := rfl

@[simp] theorem skip_skip (c : Cursor) (m n : Nat) : (c.skip m).skip n = c.skip (m + n) := by
  simp [skip, Nat.add_assoc]

theorem rest_skip {c : Cursor} {bytes s : List UInt8} {n : Nat} (h : c.rest = bytes ++ s)
    (hn : bytes.length = n) : (c.skip n).rest = s := by
  have hd : (c.skip n).rest = c.rest.drop n := by simp [rest, skip, List.drop_drop]
  rw [hd, h, ← hn, List.drop_left]

theorem take_eq {c : Cursor} {bytes s : List UInt8} {n : Nat} (h : c.rest = bytes ++ s)
    (hn : bytes.length = n) : c.take n = .ok (bytes, c.skip n) := by
  have hlen : c.remaining = bytes.length + s.length := by
    have hr : c.rest.length = c.remaining := List.length_drop
    rw [← hr, h, List.length_append]
  have hread : (c.buf.drop c.pos).take n = bytes := by
    change c.rest.take n = bytes
    rw [h, ← hn, List.take_left]
  rw [take, if_neg (by omega), hread]
  rfl

theorem u8_eq {c : Cursor} {byte : UInt8} {s : List UInt8} (h : c.rest = byte :: s) :
    c.u8 = .ok (byte, c.skip 1) := by
  rw [u8, take_eq (n := 1) (show c.rest = [byte] ++ s from h) rfl]
  rfl

theorem u32_eq {c : Cursor} {value : Nat} {s : List UInt8} (h : c.rest = leBytes 4 value ++ s)
    (hv : value < 2 ^ 32) : c.u32 = .ok (value, c.skip 4) := by
  rw [u32, take_eq h (length_leBytes 4 value)]
  simp only [bind, Except.bind, pure, Except.pure,
    ofLeBytes_leBytes_of_lt 4 value (by simpa using hv)]

end Cursor

section Lengths

variable {Γ : Env}

theorem Env.stackSizes_cons (Γ : Env) (ty : WireTy) (tys : List WireTy) :
    Γ.stackSizes (ty :: tys) = Γ.stackSize ty + Γ.stackSizes tys := rfl

theorem Env.stackSizes_replicate (Γ : Env) (elem : WireTy) (n : Nat) :
    Γ.stackSizes (List.replicate n elem) = n * Γ.stackSize elem := by
  induction n with
  | zero => simp [Env.stackSizes, stackSizesIn]
  | succ n ih => rw [List.replicate_succ, Env.stackSizes_cons, ih, Nat.succ_mul, Nat.add_comm]

theorem Env.stackSize_struct {Γ : Env} {name : Nat} {tys : List WireTy}
    (h : Γ.decl name = .struct tys) : Γ.stackSize (.derived name) = Γ.stackSizes tys := by
  have hsize := Γ.size_eq name
  rw [h] at hsize
  exact hsize

theorem Env.stackSize_enum {Γ : Env} {name : Nat} {variants : List Variant}
    {hv : variants.length ≤ 256} (h : Γ.decl name = .enum variants hv) :
    Γ.stackSize (.derived name) = if variants.any Variant.hasFields then 1 + 4 else 1 := by
  have hsize := Γ.size_eq name
  rw [h] at hsize
  exact hsize

theorem length_encodeTag (variants : List Variant) (tag heapSize : Nat) :
    (encodeTag variants tag heapSize).length =
      if variants.any Variant.hasFields then 1 + 4 else 1 := by
  unfold encodeTag
  split <;> simp

mutual

theorem Val.length_encodeStack : {ty : WireTy} → (v : Val Γ ty) →
    v.encodeStack.length = Γ.stackSize ty
  | _, .scalar bits => by simp [Val.encodeStack, Env.stackSize, WireTy.stackSizeIn]
  | _, .bool b => rfl
  | _, .char c => by simp [Val.encodeStack, Env.stackSize, WireTy.stackSizeIn]
  | _, .string s => by simp [Val.encodeStack, Env.stackSize, WireTy.stackSizeIn]
  | _, .vec units => by simp [Val.encodeStack, Env.stackSize, WireTy.stackSizeIn]
  | _, .none => rfl
  | _, .some v => rfl
  | _, .array elems => by
      rw [Val.encodeStack, elems.length_encodeStack, Env.stackSizes_replicate]
      simp [Env.stackSize, WireTy.stackSizeIn]
  | _, .tuple fields => by
      rw [Val.encodeStack, fields.length_encodeStack]
      simp [Env.stackSize, Env.stackSizes, WireTy.stackSizeIn]
  | _, .struct hdecl fields => by
      rw [Val.encodeStack, fields.length_encodeStack, Env.stackSize_struct hdecl]
  | _, .unit hdecl tag htag => by
      rw [Val.encodeStack, length_encodeTag, Env.stackSize_enum hdecl]
  | _, .variant hdecl tag htag payload => by
      rw [Val.encodeStack, length_encodeTag, Env.stackSize_enum hdecl]

theorem Fields.length_encodeStack : {tys : List WireTy} → (vs : Fields Γ tys) →
    vs.encodeStack.length = Γ.stackSizes tys
  | _, .nil => rfl
  | _, .cons v rest => by
      rw [Fields.encodeStack, List.length_append, v.length_encodeStack, rest.length_encodeStack,
        Env.stackSizes_cons]

end

mutual

theorem Val.length_encodeHeap : {ty : WireTy} → (v : Val Γ ty) →
    v.encodeHeap.length = v.heapSize
  | _, .scalar bits => rfl
  | _, .bool b => rfl
  | _, .char c => rfl
  | _, .string s => rfl
  | _, .vec units => units.length_encodeHeap
  | _, .none => rfl
  | _, .some v => by
      rw [Val.encodeHeap, List.length_append, v.length_encodeStack, v.length_encodeHeap,
        Val.heapSize]
  | _, .array elems => elems.length_encodeHeap
  | _, .tuple fields => fields.length_encodeHeap
  | _, .struct hdecl fields => fields.length_encodeHeap
  | _, .unit hdecl tag htag => rfl
  | _, .variant hdecl tag htag payload => by
      rw [Val.encodeHeap, List.length_append, payload.length_encodeStack,
        payload.length_encodeHeap, Val.heapSize]

theorem Fields.length_encodeHeap : {tys : List WireTy} → (vs : Fields Γ tys) →
    vs.encodeHeap.length = vs.heapSize
  | _, .nil => rfl
  | _, .cons v rest => by
      rw [Fields.encodeHeap, List.length_append, v.length_encodeHeap, rest.length_encodeHeap,
        Fields.heapSize]

theorem Units.length_encodeHeap : {elem : WireTy} → (vs : Units Γ elem) →
    vs.encodeHeap.length = vs.heapSize
  | _, .nil => rfl
  | _, .cons v rest => by
      rw [Units.encodeHeap, List.length_append, List.length_append, v.length_encodeStack,
        v.length_encodeHeap, rest.length_encodeHeap, Units.heapSize]

end

theorem length_toWire {ty : WireTy} (v : Val Γ ty) :
    (toWire v).length = Γ.stackSize ty + v.heapSize := by
  rw [toWire, List.length_append, v.length_encodeStack, v.length_encodeHeap]

end Lengths

-- Every `Vec` in a type has elements that take at least one stack byte. The
-- declarations a type mentions are checked once, in `Env.UnitsSized`.
mutual

def WireTy.UnitsSized (Γ : Env) : WireTy → Prop
  | .vec elem => 0 < Γ.stackSize elem ∧ elem.UnitsSized Γ
  | .option inner => inner.UnitsSized Γ
  | .array elem _ => elem.UnitsSized Γ
  | .tuple tys => AllUnitsSized Γ tys
  | .scalar _ | .bool | .char | .string | .derived _ => True

def AllUnitsSized (Γ : Env) : List WireTy → Prop
  | [] => True
  | ty :: tys => ty.UnitsSized Γ ∧ AllUnitsSized Γ tys

end

def Variant.UnitsSized (Γ : Env) : Variant → Prop
  | .unit => True
  | .fields tys => AllUnitsSized Γ tys

def Decl.UnitsSized (Γ : Env) : Decl → Prop
  | .struct tys => AllUnitsSized Γ tys
  | .enum variants _ => ∀ variant ∈ variants, variant.UnitsSized Γ

def Env.UnitsSized (Γ : Env) : Prop := ∀ name, (Γ.decl name).UnitsSized Γ

theorem allUnitsSized_replicate {Γ : Env} {elem : WireTy} (h : elem.UnitsSized Γ) (n : Nat) :
    AllUnitsSized Γ (List.replicate n elem) := by
  induction n with
  | zero => trivial
  | succ n ih => exact ⟨h, ih⟩

-- The nesting of a value, which is the fuel its decoding needs.
mutual

def Val.depth {Γ : Env} : {ty : WireTy} → Val Γ ty → Nat
  | _, .vec units => units.depth + 1
  | _, .some v => v.depth + 1
  | _, .array elems => elems.depth + 1
  | _, .tuple fields => fields.depth + 1
  | _, .struct _ fields => fields.depth + 1
  | _, .variant _ _ _ payload => payload.depth + 1
  | _, .scalar _ => 1
  | _, .bool _ => 1
  | _, .char _ => 1
  | _, .string _ => 1
  | _, .none => 1
  | _, .unit _ _ _ => 1

def Fields.depth {Γ : Env} : {tys : List WireTy} → Fields Γ tys → Nat
  | _, .nil => 0
  | _, .cons v rest => max v.depth rest.depth

def Units.depth {Γ : Env} : {elem : WireTy} → Units Γ elem → Nat
  | _, .nil => 0
  | _, .cons v rest => max v.depth rest.depth

end

section Decode

variable {Γ : Env}

theorem charFromU32_toNat (c : Char) : charFromU32 c.toNat = some c := by
  have hv : c.toNat.isValidChar := c.valid
  rw [charFromU32, dif_pos hv]
  rfl

theorem char_toNat_lt (c : Char) : c.toNat < 2 ^ 32 := c.val.toNat_lt

theorem fromUTF8_toUTF8 (s : String) :
    String.fromUTF8? ⟨s.toUTF8.data.toList.toArray⟩ = some s := by
  have hv : (⟨s.toUTF8.data.toList.toArray⟩ : ByteArray).IsValidUTF8 := s.isValidUTF8
  rw [String.fromUTF8?, dif_pos hv]
  rfl

-- A decoder reads a value off cursors that start with the value's bytes, and
-- leaves them right behind those bytes, whatever follows.
def Reads (dec : (ty : WireTy) → Cursor → Cursor → Except Stop (Val Γ ty × Cursor × Cursor))
    {ty : WireTy} (v : Val Γ ty) : Prop :=
  ∀ (stack heap : Cursor) (s h : List UInt8), stack.rest = v.encodeStack ++ s →
    heap.rest = v.encodeHeap ++ h →
    dec ty stack heap = .ok (v, stack.skip (Γ.stackSize ty), heap.skip v.heapSize)

variable {dec : (ty : WireTy) → Cursor → Cursor → Except Stop (Val Γ ty × Cursor × Cursor)}

theorem decodeFields_cons {ty : WireTy} {tys : List WireTy} {v : Val Γ ty} {rest : Fields Γ tys}
    {stack heap : Cursor} {s h : List UInt8} (hv : Reads dec v)
    (hrest : ∀ stack heap, stack.rest = rest.encodeStack ++ s → heap.rest = rest.encodeHeap ++ h →
      decodeFields dec tys stack heap =
        .ok (rest, stack.skip (Γ.stackSizes tys), heap.skip rest.heapSize))
    (hs : stack.rest = (Fields.cons v rest).encodeStack ++ s)
    (hh : heap.rest = (Fields.cons v rest).encodeHeap ++ h) :
    decodeFields dec (ty :: tys) stack heap =
      .ok (.cons v rest, stack.skip (Γ.stackSizes (ty :: tys)),
        heap.skip (Fields.cons v rest).heapSize) := by
  rw [Fields.encodeStack, List.append_assoc] at hs
  rw [Fields.encodeHeap, List.append_assoc] at hh
  have hread := hv stack heap _ _ hs hh
  have hnext := hrest _ _ (Cursor.rest_skip hs v.length_encodeStack)
    (Cursor.rest_skip hh v.length_encodeHeap)
  simp only [decodeFields, hread, hnext, bind, Except.bind, pure, Except.pure, Cursor.skip_skip]
  rfl

-- One round of the loop of `Vec`: the unit at `cur` is its stack, then a heap
-- of which it takes only its own part.
theorem decodeUnits_cons {elem : WireTy} {v : Val Γ elem} {rest : Units Γ elem}
    {region : List UInt8} {rounds cur : Nat} (hpos : 0 < Γ.stackSize elem) (hv : Reads dec v)
    (hregion : region.drop cur = (Units.cons v rest).encodeHeap)
    (hrest : decodeUnits dec elem region rounds (cur + (Γ.stackSize elem + v.heapSize)) =
      .ok rest) :
    decodeUnits dec elem region (rounds + 1) cur = .ok (.cons v rest) := by
  have hlen := congrArg List.length hregion
  rw [List.length_drop, Units.length_encodeHeap, Units.heapSize] at hlen
  rw [Units.encodeHeap, List.append_assoc] at hregion
  have hstack : (region.drop cur).take (Γ.stackSize elem) = v.encodeStack := by
    rw [hregion, ← v.length_encodeStack, List.take_left]
  have hheap : region.drop (cur + Γ.stackSize elem) = v.encodeHeap ++ rest.encodeHeap := by
    rw [← List.drop_drop, hregion, ← v.length_encodeStack, List.drop_left]
  have hread := hv (Cursor.new v.encodeStack) (Cursor.new (v.encodeHeap ++ rest.encodeHeap)) []
    rest.encodeHeap (by simp) (by simp)
  rw [decodeUnits, if_pos (by omega), if_neg (by omega), hstack, hheap]
  simp only [hread, bind, Except.bind, pure, Except.pure, Cursor.skip_pos, Cursor.pos_new,
    Nat.zero_add, hrest]

theorem decodeVariant_unit {name : Nat} {variants : List Variant} {h : variants.length ≤ 256}
    (hdecl : Γ.decl name = .enum variants h) {tag : Nat} (byte : UInt8) (hbyte : byte.toNat = tag)
    (htag : variants[tag]? = some .unit) (payload : List UInt8) :
    decodeVariant dec hdecl byte payload = .ok (.unit hdecl tag htag) := by
  subst hbyte
  unfold decodeVariant
  split <;> rename_i h' <;> rw [htag] at h' <;> cases h'
  rfl

theorem decodeVariant_fields {name : Nat} {variants : List Variant} {h : variants.length ≤ 256}
    (hdecl : Γ.decl name = .enum variants h) {tag : Nat} (byte : UInt8) (hbyte : byte.toNat = tag)
    {tys : List WireTy} (htag : variants[tag]? = some (.fields tys)) (payload : Fields Γ tys)
    (hread : ∀ stack heap, stack.rest = payload.encodeStack ++ [] →
      heap.rest = payload.encodeHeap ++ [] → decodeFields dec tys stack heap =
        .ok (payload, stack.skip (Γ.stackSizes tys), heap.skip payload.heapSize)) :
    decodeVariant dec hdecl byte (payload.encodeStack ++ payload.encodeHeap) =
      .ok (.variant hdecl tag htag payload) := by
  subst hbyte
  have hlen := payload.length_encodeStack
  have hdec := hread (Cursor.new payload.encodeStack) (Cursor.new payload.encodeHeap)
    (by simp) (by simp)
  unfold decodeVariant
  split <;> rename_i h' <;> rw [htag] at h' <;> cases h'
  rw [if_neg (by rw [List.length_append]; omega), ← hlen, List.take_left, List.drop_left]
  simp only [hdec, bind, Except.bind, pure, Except.pure]

theorem decodeDerived_struct {name : Nat} {tys : List WireTy} (hdecl : Γ.decl name = .struct tys)
    (stack heap : Cursor) :
    decodeDerived dec name stack heap = (do
      let (fields, stack, heap) ← decodeFields dec tys stack heap
      return (.struct hdecl fields, stack, heap)) := by
  unfold decodeDerived
  split <;> rename_i h' <;> rw [hdecl] at h' <;> cases h'
  rfl

-- Both forms of an enum, once the arm for its tag is known to give `v`.
theorem decodeDerived_enum {name : Nat} {variants : List Variant} {h : variants.length ≤ 256}
    (hdecl : Γ.decl name = .enum variants h) {tag size : Nat} {payload s t : List UInt8}
    {v : Val Γ (.derived name)} {stack heap : Cursor} (hsize : size < 2 ^ 32)
    (hs : stack.rest = encodeTag variants tag size ++ s) (hh : heap.rest = payload ++ t)
    (hlen : payload.length = size) (hnone : variants.any Variant.hasFields = false → payload = [])
    (hv : decodeVariant dec hdecl (UInt8.ofNat tag) payload = .ok v) :
    decodeDerived dec name stack heap =
      .ok (v, stack.skip (Γ.stackSize (.derived name)), heap.skip size) := by
  rw [Env.stackSize_enum hdecl]
  unfold decodeDerived
  split <;> rename_i h' <;> rw [hdecl] at h' <;> cases h'
  by_cases hfields : variants.any Variant.hasFields = true
  · rw [encodeTag, if_pos hfields] at hs
    have hrest : (stack.skip 1).rest = leBytes 4 size ++ s :=
      Cursor.rest_skip (show _ = [UInt8.ofNat tag] ++ _ from hs) rfl
    simp only [if_pos hfields, Cursor.u8_eq hs, Cursor.u32_eq hrest hsize,
      Cursor.take_eq hh hlen, hv, bind, Except.bind, pure, Except.pure, Cursor.skip_skip]
  · rw [encodeTag, if_neg hfields] at hs
    have hp := hnone (by simpa using hfields)
    subst hp
    simp only [if_neg hfields, Cursor.u8_eq hs, hv, bind, Except.bind, pure, Except.pure]
    rw [← hlen]
    rfl

theorem toNat_ofNat_tag {variants : List Variant} {variant : Variant} {tag : Nat}
    (h : variants.length ≤ 256) (htag : variants[tag]? = some variant) :
    (UInt8.ofNat tag).toNat = tag := by
  obtain ⟨hlt, -⟩ := List.getElem?_eq_some_iff.mp htag
  simp only [UInt8.toNat_ofNat']
  omega

theorem Val.reads_some {inner : WireTy} {fuel : Nat} {v : Val Γ inner}
    (hv : Reads (decode fuel) v) : Reads (decode (fuel + 1)) (Val.some v) := by
  intro stack heap s h hs hh
  rw [Val.encodeHeap, List.append_assoc] at hh
  have hread := hv (Cursor.new v.encodeStack) (heap.skip (Γ.stackSize inner)) [] h (by simp)
    (Cursor.rest_skip hh v.length_encodeStack)
  simp only [decode, Cursor.u8_eq hs, Cursor.take_eq hh v.length_encodeStack, hread, bind,
    Except.bind, pure, Except.pure, Cursor.skip_skip]
  rfl

-- The induction is on the value. Below a `Vec` or an enum payload the nested
-- value reads fresh cursors, elsewhere it goes on where its sibling stopped.
mutual

theorem Val.reads (hΓ : Γ.UnitsSized) : {ty : WireTy} → (v : Val Γ ty) → ty.UnitsSized Γ →
    v.heapSize < 2 ^ 32 → (fuel : Nat) → v.depth ≤ fuel → Reads (decode fuel) v
  | .scalar s, .scalar bits, _, _, _ + 1, _ => by
      intro stack heap t h hs _
      rw [Val.encodeStack] at hs
      have hbits : bits.toNat < 256 ^ s.size := by
        rw [show 256 = 2 ^ 8 from rfl, ← Nat.pow_mul]
        exact bits.isLt
      simp only [decode, Cursor.take_eq hs (length_leBytes _ _), bind, Except.bind, pure,
        Except.pure, ofLeBytes_leBytes_of_lt _ _ hbits, BitVec.ofNat_toNat, BitVec.setWidth_eq]
      rfl
  | _, .bool b, _, _, _ + 1, _ => by
      intro stack heap t h hs _
      simp only [decode, Cursor.u8_eq hs, bind, Except.bind, pure, Except.pure]
      cases b <;> rfl
  | _, .char c, _, _, _ + 1, _ => by
      intro stack heap t h hs _
      simp only [decode, Cursor.u32_eq hs (char_toNat_lt c), bind, Except.bind, pure,
        Except.pure, charFromU32_toNat]
      rfl
  | _, .string str, _, hsize, _ + 1, _ => by
      intro stack heap t h hs hh
      rw [Val.encodeHeap] at hh
      simp only [decode, Cursor.u32_eq hs hsize,
        Cursor.take_eq hh (n := str.utf8ByteSize) rfl, bind, Except.bind, pure, Except.pure,
        fromUTF8_toUTF8]
      rfl
  | _, .vec units, ⟨hpos, helem⟩, hsize, fuel + 1, hfuel => by
      intro stack heap t h hs hh
      rw [Val.encodeHeap] at hh
      have hloop := Units.decodeUnits_eq hΓ units hpos helem hsize fuel (by
        rw [Val.depth] at hfuel
        omega) units.encodeHeap units.encodeHeap.length 0 rfl (by omega)
      simp only [decode, Cursor.u32_eq hs hsize, Cursor.take_eq hh units.length_encodeHeap,
        hloop, bind, Except.bind, pure, Except.pure]
      rfl
  | _, .none, _, _, _ + 1, _ => by
      intro stack heap t h hs _
      simp only [decode, Cursor.u8_eq hs, bind, Except.bind, pure, Except.pure]
      rfl
  | _, .some v, hinner, hsize, fuel + 1, hfuel =>
    Val.reads_some (Val.reads hΓ v hinner (by rw [Val.heapSize] at hsize; omega) fuel
      (by rw [Val.depth] at hfuel; omega))
  | .array elem _, .array elems, helem, hsize, fuel + 1, hfuel => by
      intro stack heap t h hs hh
      have hread := Fields.decodeFields_eq hΓ elems (allUnitsSized_replicate (show elem.UnitsSized Γ from helem) _) hsize fuel
        (by rw [Val.depth] at hfuel; omega) t h stack heap hs hh
      simp only [decode, hread, bind, Except.bind, pure, Except.pure, Env.stackSizes_replicate]
      rfl
  | _, .tuple fields, htys, hsize, fuel + 1, hfuel => by
      intro stack heap t h hs hh
      have hread := Fields.decodeFields_eq hΓ fields htys hsize fuel
        (by rw [Val.depth] at hfuel; omega) t h stack heap hs hh
      simp only [decode, hread, bind, Except.bind, pure, Except.pure]
      rfl
  | .derived name, .struct hdecl fields, _, hsize, fuel + 1, hfuel => by
      intro stack heap t h hs hh
      have htys := hΓ name
      rw [hdecl] at htys
      have hread := Fields.decodeFields_eq hΓ fields htys hsize fuel
        (by rw [Val.depth] at hfuel; omega) t h stack heap hs hh
      simp only [decode, decodeDerived_struct hdecl, hread, bind, Except.bind, pure, Except.pure,
        Env.stackSize_struct hdecl]
      rfl
  | _, .unit (h := hlen) hdecl tag htag, _, hsize, fuel + 1, _ => by
      intro stack heap t h hs hh
      exact decodeDerived_enum hdecl hsize hs hh rfl (fun _ => rfl)
        (decodeVariant_unit hdecl _ (toNat_ofNat_tag hlen htag) htag _)
  | .derived name, .variant (h := hlen) hdecl tag htag payload, _, hsize, fuel + 1, hfuel => by
      intro stack heap t h hs hh
      have hmem := List.mem_of_getElem? htag
      have htys := hΓ name
      rw [hdecl] at htys
      have hread := Fields.decodeFields_eq hΓ payload (htys _ hmem)
        (by rw [Val.heapSize] at hsize; omega) fuel (by rw [Val.depth] at hfuel; omega) [] []
      have hany := List.any_eq_true.mpr ⟨_, hmem, show Variant.hasFields (.fields _) = true from rfl⟩
      exact decodeDerived_enum hdecl hsize hs hh
        (Val.length_encodeHeap (.variant hdecl tag htag payload))
        (fun hnone => absurd hany (by rw [hnone]; decide))
        (decodeVariant_fields hdecl _ (toNat_ofNat_tag hlen htag) htag payload hread)

theorem Fields.decodeFields_eq (hΓ : Γ.UnitsSized) : {tys : List WireTy} → (vs : Fields Γ tys) →
    AllUnitsSized Γ tys → vs.heapSize < 2 ^ 32 → (fuel : Nat) → vs.depth ≤ fuel →
    (s h : List UInt8) → (stack heap : Cursor) → stack.rest = vs.encodeStack ++ s →
    heap.rest = vs.encodeHeap ++ h → decodeFields (decode fuel) tys stack heap =
      .ok (vs, stack.skip (Γ.stackSizes tys), heap.skip vs.heapSize)
  | _, .nil, _, _, _, _, _, _, _, _, _, _ => rfl
  | _, .cons v rest, ⟨hty, htys⟩, hsize, fuel, hfuel, s, h, _, _, hs, hh => by
      rw [Fields.heapSize] at hsize
      rw [Fields.depth] at hfuel
      exact decodeFields_cons (Val.reads hΓ v hty (by omega) fuel (by omega))
        (Fields.decodeFields_eq hΓ rest htys (by omega) fuel (by omega) s h) hs hh

theorem Units.decodeUnits_eq (hΓ : Γ.UnitsSized) : {elem : WireTy} → (vs : Units Γ elem) →
    0 < Γ.stackSize elem → elem.UnitsSized Γ → vs.heapSize < 2 ^ 32 → (fuel : Nat) →
    vs.depth ≤ fuel → (region : List UInt8) → (rounds cur : Nat) →
    region.drop cur = vs.encodeHeap → region.length ≤ cur + rounds →
    decodeUnits (decode fuel) elem region rounds cur = .ok vs
  | _, .nil, _, _, _, _, _, region, rounds, cur, hregion, _ => by
      have hlen : region.length ≤ cur := List.drop_eq_nil_iff.mp hregion
      cases rounds <;> simp [decodeUnits, Nat.not_lt.mpr hlen] <;> rfl
  | elem, .cons v rest, hpos, helem, hsize, fuel, hfuel, region, rounds, cur, hregion, hrounds => by
      have hlen := congrArg List.length hregion
      rw [List.length_drop, Units.length_encodeHeap, Units.heapSize] at hlen
      rw [Units.heapSize] at hsize
      rw [Units.depth] at hfuel
      cases rounds with
      | zero => omega
      | succ rounds =>
        apply decodeUnits_cons hpos (Val.reads hΓ v helem (by omega) fuel (by omega)) hregion
        apply Units.decodeUnits_eq hΓ rest hpos helem (by omega) fuel (by omega)
        · rw [← List.drop_drop, hregion, Units.encodeHeap]
          apply List.drop_left'
          rw [List.length_append, v.length_encodeStack, v.length_encodeHeap]
        · omega

end

theorem fromWire_toWire {ty : WireTy} {v : Val Γ ty} {fuel : Nat} (hv : Reads (decode fuel) v) :
    fromWire fuel ty (toWire v) = .ok v := by
  have hlen := length_toWire v
  have hread := hv (Cursor.new v.encodeStack) (Cursor.new v.encodeHeap) [] [] (by simp) (by simp)
  rw [fromWire, if_neg (by omega), toWire, ← v.length_encodeStack, List.take_left, List.drop_left]
  simp only [hread, bind, Except.bind, pure, Except.pure]

-- Every declaration environment, type and value. Any fuel from the nesting of the value
-- on gives the same answer.
theorem wire_round_trip (hΓ : Γ.UnitsSized) {ty : WireTy} (hty : ty.UnitsSized Γ) (v : Val Γ ty)
    (hfit : (toWire v).length < 2 ^ 32) :
    (toWire v).length = Γ.stackSize ty + v.heapSize ∧
    v.encodeStack.length = Γ.stackSize ty ∧
    ∀ fuel, v.depth ≤ fuel →
      fromWire fuel ty (toWire v) = .ok v ∧
      ∀ (stack heap : Cursor) (s h : List UInt8), stack.rest = v.encodeStack ++ s →
        heap.rest = v.encodeHeap ++ h → decode fuel ty stack heap =
          .ok (v, stack.skip v.encodeStack.length, heap.skip v.encodeHeap.length) := by
  have hlen := length_toWire v
  refine ⟨hlen, v.length_encodeStack, fun fuel hfuel => ?_⟩
  have hreads := v.reads hΓ hty (by omega) fuel hfuel
  refine ⟨fromWire_toWire hreads, ?_⟩
  rw [v.length_encodeStack, v.length_encodeHeap]
  exact hreads

end Decode

-- A tree that names itself below a `Vec`, and an enum with and without fields.
def sampleEnv : Env where
  decl
    | 0 => .struct [.scalar .u16, .vec (.derived 0)]
    | 1 => .enum [.unit, .fields [.string, .option (.derived 0)]] (by decide)
    | _ => .struct []
  size
    | 0 => 6
    | 1 => 5
    | _ => 0
  size_eq
    | 0 => rfl
    | 1 => rfl
    | _ + 2 => rfl

def sampleTree : Val sampleEnv (.derived 0) :=
  .struct rfl (.cons (.scalar 7) (.cons
    (.vec (.cons (.struct rfl (.cons (.scalar 258) (.cons (.vec .nil) .nil))) .nil)) .nil))

def sampleValue : Val sampleEnv (.derived 1) :=
  .variant rfl 1 rfl (.cons (.string "ab") (.cons (.some sampleTree) .nil))

theorem sampleEnv_unitsSized : sampleEnv.UnitsSized := by
  rintro (_ | _ | name)
  · exact ⟨trivial, ⟨by decide, trivial⟩, trivial⟩
  · intro variant hv
    simp only [List.mem_cons, List.not_mem_nil, or_false] at hv
    obtain rfl | rfl := hv
    · trivial
    · exact ⟨trivial, trivial, trivial⟩
  · trivial

theorem wire_round_trip_sample :
    (toWire sampleValue).length < 2 ^ 32 ∧
    fromWire 8 (.derived 1) (toWire sampleValue) = .ok sampleValue :=
  ⟨by decide, ((wire_round_trip sampleEnv_unitsSized (show WireTy.UnitsSized _ (.derived 1) from trivial)
    sampleValue (by decide)).2.2 8 (by decide)).1⟩

end WaveDb.Wire
