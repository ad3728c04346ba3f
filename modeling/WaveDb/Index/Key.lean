import WaveDb.Lib.BigEndian
import WaveDb.Core.Store

-- The order-preserving encoding of index keys.
namespace WaveDb.Index

open WaveDb.Lib WaveDb.Core

inductive IntWidth
  | w8
  | w16
  | w32
  | w64
  | w128
  deriving DecidableEq

def IntWidth.bytes : IntWidth → Nat
  | .w8 => 1
  | .w16 => 2
  | .w32 => 4
  | .w64 => 8
  | .w128 => 16

-- The types with a key encoding. `String` delegates to `str`.
inductive KeyType
  | unsigned (width : IntWidth)
  | signed (width : IntWidth)
  | bool
  | char
  | u48
  | localId
  | str
  | ref (target : KeyType)
  | pair (a b : KeyType)
  | triple (a b c : KeyType)
  deriving DecidableEq

structure Str where
  text : String
  deriving DecidableEq

def Str.bytes (s : Str) : List UInt8 := s.text.toByteArray.data.toList

theorem Str.bytes_injective : Function.Injective Str.bytes := by
  rintro ⟨s⟩ ⟨s'⟩ h
  have hdata := Array.toList_inj.mp h
  have hbytes : s.toByteArray = s'.toByteArray := congrArg ByteArray.mk hdata
  rw [String.toByteArray_inj.mp hbytes]

instance : LinearOrder Str := LinearOrder.lift' Str.bytes Str.bytes_injective

def KeyType.Value : KeyType → Type
  | .unsigned width => Fin (256 ^ width.bytes)
  | .signed width => Set.Ico (-2 ^ (8 * width.bytes - 1) : ℤ) (2 ^ (8 * width.bytes - 1))
  | .bool => Bool
  | .char => Char
  | .u48 => Fin (2 ^ 48)
  | .localId => { l : LocalId // l.key < 2 ^ 64 ∧ l.lower < 2 ^ 16 }
  | .str => Str
  | .ref target => target.Value
  | .pair a b => a.Value ×ₗ b.Value
  | .triple a b c => a.Value ×ₗ b.Value ×ₗ c.Value

-- The order of each type: tuples compare component by component.
@[reducible] def KeyType.order : (t : KeyType) → LinearOrder t.Value
  | .unsigned width => inferInstanceAs (LinearOrder (Fin (256 ^ width.bytes)))
  | .signed width => inferInstanceAs (LinearOrder
      (Set.Ico (-2 ^ (8 * width.bytes - 1) : ℤ) (2 ^ (8 * width.bytes - 1))))
  | .bool => inferInstanceAs (LinearOrder Bool)
  | .char => inferInstanceAs (LinearOrder Char)
  | .u48 => inferInstanceAs (LinearOrder (Fin (2 ^ 48)))
  | .localId => inferInstanceAs (LinearOrder { l : LocalId // l.key < 2 ^ 64 ∧ l.lower < 2 ^ 16 })
  | .str => inferInstanceAs (LinearOrder Str)
  | .ref target => target.order
  | .pair a b => @Prod.Lex.instLinearOrder a.Value b.Value a.order b.order
  | .triple a b c => @Prod.Lex.instLinearOrder a.Value (b.Value ×ₗ c.Value) a.order
      (@Prod.Lex.instLinearOrder b.Value c.Value b.order c.order)

instance (t : KeyType) : LinearOrder t.Value := t.order

def signedBits (bits : Nat) (z : ℤ) : Nat := (z % 2 ^ bits).toNat ^^^ 2 ^ (bits - 1)

def encodeKey : (t : KeyType) → t.Value → List UInt8 → List UInt8
  | .unsigned width, (x : Fin _), out => out ++ beBytes width.bytes x.val
  | .signed width, (x : Set.Ico _ _), out =>
    out ++ beBytes width.bytes (signedBits (8 * width.bytes) x.val)
  | .bool, (x : Bool), out => out ++ [if x then 1 else 0]
  | .char, (x : Char), out => out ++ beBytes 4 x.toNat
  -- the two high bytes of the `u64` are zero and are dropped
  | .u48, (x : Fin _), out => out ++ (beBytes 8 x.val).drop 2
  | .localId, (x : { _l : LocalId // _ }), out =>
    out ++ beBytes 8 x.val.key ++
      beBytes 2 ((if x.val.flag then 2 ^ 15 else 0) + x.val.salt)
  | .str, (x : Str), out => out ++ x.bytes ++ [0]
  | .ref target, x, out => encodeKey target x out
  | .pair a b, x, out => encodeKey b (ofLex x).2 (encodeKey a (ofLex x).1 out)
  | .triple a b c, x, out =>
    encodeKey c (ofLex (ofLex x).2).2
      (encodeKey b (ofLex (ofLex x).2).1 (encodeKey a (ofLex x).1 out))

def keyBytes (t : KeyType) (x : t.Value) : List UInt8 := encodeKey t x []

theorem encodeKey_eq (t : KeyType) (x : t.Value) (out : List UInt8) :
    encodeKey t x out = out ++ keyBytes t x := by
  induction t generalizing out with
  | unsigned width | signed width | bool | char | u48 | localId | str => simp [keyBytes, encodeKey]
  | ref target ih => exact ih x out
  | pair a b iha ihb =>
    rw [keyBytes, encodeKey, encodeKey, ihb, iha, ihb]
    simp [keyBytes]
  | triple a b c iha ihb ihc =>
    rw [keyBytes, encodeKey, encodeKey, ihc, ihb, iha, ihc, ihb]
    simp [keyBytes]

theorem keyBytes_pair (a b : KeyType) (x : (KeyType.pair a b).Value) :
    keyBytes (.pair a b) x = keyBytes a (ofLex x).1 ++ keyBytes b (ofLex x).2 := by
  rw [keyBytes, encodeKey, encodeKey_eq, encodeKey_eq, List.nil_append]

theorem keyBytes_triple (a b c : KeyType) (x : (KeyType.triple a b c).Value) :
    keyBytes (.triple a b c) x = keyBytes a (ofLex x).1 ++
      (keyBytes b (ofLex (ofLex x).2).1 ++ keyBytes c (ofLex (ofLex x).2).2) := by
  rw [keyBytes, encodeKey, encodeKey_eq, encodeKey_eq, encodeKey_eq, List.nil_append,
    List.append_assoc]

def Framed (t : KeyType) (x y : t.Value) : Prop :=
  ∀ u v, keyBytes t x ++ u < keyBytes t y ++ v ↔ x < y ∨ x = y ∧ u < v

section Numbers

theorem Framed.of_number {t : KeyType} {x y : t.Value} {width m n : Nat}
    (hx : keyBytes t x = beBytes width m) (hy : keyBytes t y = beBytes width n)
    (hm : m < 256 ^ width) (hn : n < 256 ^ width) (hlt : x < y ↔ m < n) (heq : x = y ↔ m = n) :
    Framed t x y := by
  intro u v
  rw [hx, hy, beBytes_append_lt hm hn, hlt, heq]

theorem two_pow_xor_of_lt {m k : Nat} (h : m < 2 ^ k) : 2 ^ k ^^^ m = 2 ^ k + m := by
  have hor := Nat.two_pow_add_eq_or_of_lt h 1
  rw [Nat.mul_one] at hor
  rw [hor]
  refine Nat.eq_of_testBit_eq fun i => ?_
  rw [Nat.testBit_xor, Nat.testBit_or, Nat.testBit_two_pow]
  by_cases hi : k = i
  · subst hi
    rw [Nat.testBit_lt_two_pow h]
    simp
  · simp [hi]

theorem signedBits_eq {k : Nat} {z : ℤ} (hlow : -2 ^ k ≤ z) (hhigh : z < 2 ^ k) :
    signedBits (k + 1) z = (z + 2 ^ k).toNat := by
  rw [signedBits, Nat.add_sub_cancel, Nat.xor_comm]
  have hpow : (2 : ℤ) ^ (k + 1) = 2 ^ k + 2 ^ k := by ring
  have hcast : ((2 ^ k : Nat) : ℤ) = 2 ^ k := by norm_cast
  rcases Int.lt_or_le z 0 with hz | hz
  · -- the sign bit is set and is cleared
    have hmod : z % 2 ^ (k + 1) = z + 2 ^ (k + 1) := by
      rw [← Int.add_emod_right, Int.emod_eq_of_lt (by omega) (by omega)]
    have hrest : (z + 2 ^ k).toNat < 2 ^ k := by omega
    have hset : (z % 2 ^ (k + 1)).toNat = 2 ^ k + (z + 2 ^ k).toNat := by omega
    rw [hset, ← two_pow_xor_of_lt hrest, ← Nat.xor_assoc, Nat.xor_self, Nat.zero_xor]
  · have hmod : z % 2 ^ (k + 1) = z := Int.emod_eq_of_lt hz (by omega)
    rw [hmod, two_pow_xor_of_lt (by omega)]
    omega

theorem framed_unsigned (width : IntWidth) (x y : (KeyType.unsigned width).Value) :
    Framed (.unsigned width) x y :=
  .of_number (m := Fin.val x) (n := Fin.val y) rfl rfl (Fin.isLt x) (Fin.isLt y) Fin.lt_def
    Fin.ext_iff

theorem framed_signed (width : IntWidth)
    (x y : Set.Ico (-2 ^ (8 * width.bytes - 1) : ℤ) (2 ^ (8 * width.bytes - 1))) :
    Framed (.signed width) x y := by
  obtain ⟨k, hk, hpow⟩ : ∃ k, 8 * width.bytes = k + 1 ∧ 256 ^ width.bytes = 2 ^ (k + 1) := by
    cases width
    · exact ⟨7, rfl, rfl⟩
    · exact ⟨15, rfl, rfl⟩
    · exact ⟨31, rfl, rfl⟩
    · exact ⟨63, rfl, rfl⟩
    · exact ⟨127, rfl, rfl⟩
  have hbias : 8 * width.bytes - 1 = k := by omega
  have hdouble : (2 : ℤ) ^ (k + 1) = 2 ^ k + 2 ^ k := by ring
  have hcast : ((2 ^ (k + 1) : Nat) : ℤ) = 2 ^ (k + 1) := by norm_cast
  have hrange : ∀ z : Set.Ico (-2 ^ (8 * width.bytes - 1) : ℤ) (2 ^ (8 * width.bytes - 1)),
      -2 ^ k ≤ z.val ∧ z.val < 2 ^ k := fun z => hbias ▸ z.2
  have hkey : ∀ z : Set.Ico (-2 ^ (8 * width.bytes - 1) : ℤ) (2 ^ (8 * width.bytes - 1)),
      keyBytes (.signed width) z = beBytes width.bytes (z.val + 2 ^ k).toNat := by
    intro z
    have hbits := signedBits_eq (hrange z).1 (hrange z).2
    rw [← hk] at hbits
    exact congrArg (beBytes width.bytes) hbits
  have hx := hrange x
  have hy := hrange y
  have hlt : x < y ↔ (x.val + 2 ^ k).toNat < (y.val + 2 ^ k).toNat := by
    rw [← Subtype.coe_lt_coe]
    omega
  have heq : x = y ↔ (x.val + 2 ^ k).toNat = (y.val + 2 ^ k).toNat := by
    rw [Subtype.ext_iff]
    omega
  exact .of_number (hkey x) (hkey y) (by rw [hpow]; omega) (by rw [hpow]; omega) hlt heq

theorem framed_bool (x y : Bool) : Framed .bool x y := by
  have hkey : ∀ z : Bool, keyBytes .bool z = beBytes 1 z.toNat := by
    intro z
    cases z <;> rfl
  have hlt : ∀ x y : Bool, x < y ↔ x.toNat < y.toNat := by decide
  have heq : ∀ x y : Bool, x = y ↔ x.toNat = y.toNat := by decide
  have hbound : ∀ z : Bool, z.toNat < 256 ^ 1 := by decide
  exact .of_number (hkey x) (hkey y) (hbound x) (hbound y) (hlt x y) (heq x y)

theorem framed_char (x y : Char) : Framed .char x y := by
  have heq : x = y ↔ x.toNat = y.toNat :=
    ⟨fun h => h ▸ rfl, fun h => Char.ext (UInt32.toNat_inj.mp h)⟩
  have hbound : ∀ z : Char, z.toNat < 256 ^ 4 := fun z => z.val.toNat_lt
  exact .of_number rfl rfl (hbound x) (hbound y) Iff.rfl heq

theorem framed_u48 (x y : KeyType.u48.Value) : Framed .u48 x y := by
  have hdrop : ∀ z : Fin (2 ^ 48), (beBytes 8 z.val).drop 2 = beBytes 6 z.val := by
    intro z
    have hz := z.isLt
    change beBytes 6 (z.val % 256 ^ 7 % 256 ^ 6) = _
    rw [Nat.mod_eq_of_lt (by omega), Nat.mod_eq_of_lt (by omega)]
  exact .of_number (m := Fin.val x) (n := Fin.val y) (hdrop x) (hdrop y) (Fin.isLt x) (Fin.isLt y)
    Fin.lt_def Fin.ext_iff

theorem flag_add_salt {l : LocalId} (h : l.lower < 2 ^ 16) :
    (if l.flag then 2 ^ 15 else 0) + l.salt = l.lower := by
  have hflag : l.flag = true ↔ l.lower / 2 ^ 15 = 1 := by
    rw [LocalId.flag, beq_iff_eq]
    omega
  rw [LocalId.salt]
  by_cases hset : l.flag = true
  · have := hflag.mp hset
    rw [if_pos hset]
    omega
  · have := mt hflag.mpr hset
    rw [if_neg hset]
    omega

theorem framed_localId (x y : { l : LocalId // l.key < 2 ^ 64 ∧ l.lower < 2 ^ 16 }) :
    Framed .localId x y := by
  have hkey : ∀ z : { l : LocalId // l.key < 2 ^ 64 ∧ l.lower < 2 ^ 16 },
      keyBytes .localId z = beBytes 8 z.val.key ++ beBytes 2 z.val.lower := by
    intro z
    change [] ++ beBytes 8 z.val.key ++ beBytes 2 _ = _
    rw [flag_add_salt z.2.2, List.nil_append]
  have hlt : x < y ↔ x.val.key < y.val.key ∨ x.val.key = y.val.key ∧ x.val.lower < y.val.lower :=
    Prod.Lex.toLex_lt_toLex
  have heq : x = y ↔ x.val.key = y.val.key ∧ x.val.lower = y.val.lower := by
    obtain ⟨⟨xk, xl⟩, _⟩ := x
    obtain ⟨⟨yk, yl⟩, _⟩ := y
    simp
  have hfits : ∀ z : { l : LocalId // l.key < 2 ^ 64 ∧ l.lower < 2 ^ 16 },
      z.val.key < 256 ^ 8 ∧ z.val.lower < 256 ^ 2 := fun z => z.2
  intro u v
  rw [hkey, hkey, List.append_assoc, List.append_assoc, beBytes_append_lt (hfits x).1 (hfits y).1,
    beBytes_append_lt (hfits x).2 (hfits y).2]
  refine (iff_of_eq ?_).trans (or_congr hlt (and_congr_left fun _ => heq)).symm
  apply propext
  tauto

end Numbers

section Strings

theorem zero_lt_of_not_mem {x : UInt8} {a : List UInt8} (h : 0 ∉ x :: a) : 0 < x :=
  UInt8.pos_iff_ne_zero.mpr fun hx => h (hx ▸ List.mem_cons_self)

theorem terminated_lt {a b u v : List UInt8} (ha : 0 ∉ a) (hb : 0 ∉ b) :
    a ++ 0 :: u < b ++ 0 :: v ↔ a < b ∨ a = b ∧ u < v := by
  induction a generalizing b with
  | nil =>
    cases b with
    | nil => simp
    | cons y b => simp [List.cons_lt_cons_iff, zero_lt_of_not_mem hb]
  | cons x a ih =>
    cases b with
    | nil =>
      have hx := zero_lt_of_not_mem ha
      simp [List.cons_lt_cons_iff, hx.not_gt, hx.ne', -not_lt]
    | cons y b =>
      have ih := ih (fun h => ha (List.mem_cons_of_mem _ h))
        fun h => hb (List.mem_cons_of_mem _ h)
      simp only [List.cons_append, List.cons_lt_cons_iff, ih, List.cons.injEq]
      tauto

theorem terminated_last_lt (a b : List UInt8) : a ++ [0] < b ++ [0] ↔ a < b := by
  induction a generalizing b with
  | nil =>
    cases b with
    | nil => simp
    | cons y b =>
      have hy : 0 < y ∨ 0 = y := UInt8.zero_le.lt_or_eq
      have hrest : ([] : List UInt8) < b ++ [0] := by
        cases b <;> exact List.nil_lt_cons _ _
      simp [List.cons_lt_cons_iff, hy, hrest]
  | cons x a ih =>
    cases b with
    | nil =>
      have hx : ¬ x < 0 := UInt8.not_lt_zero
      simp [List.cons_lt_cons_iff, hx, -not_lt]
    | cons y b => simp [List.cons_lt_cons_iff, ih]

theorem framed_str (x y : Str) (hx : 0 ∉ x.bytes) (hy : 0 ∉ y.bytes) : Framed .str x y := by
  intro u v
  have hkey : ∀ (z : Str) (w : List UInt8), keyBytes .str z ++ w = z.bytes ++ 0 :: w := by
    intro z w
    change [] ++ z.bytes ++ [0] ++ w = _
    simp
  have heq : x = y ↔ x.bytes = y.bytes := Str.bytes_injective.eq_iff.symm
  rw [hkey, hkey, terminated_lt hx hy, ← heq]
  rfl

end Strings

def NulFree : (t : KeyType) → t.Value → Prop
  | .str, (x : Str) => 0 ∉ x.bytes
  | .ref target, x => NulFree target x
  | .pair a b, x => NulFree a (ofLex x).1 ∧ NulFree b (ofLex x).2
  | .triple a b c, x =>
    NulFree a (ofLex x).1 ∧ NulFree b (ofLex (ofLex x).2).1 ∧ NulFree c (ofLex (ofLex x).2).2
  | .unsigned _, _ => True
  | .signed _, _ => True
  | .bool, _ => True
  | .char, _ => True
  | .u48, _ => True
  | .localId, _ => True

def NulFreeInside : (t : KeyType) → t.Value → Prop
  | .ref target, x => NulFreeInside target x
  | .pair a b, x => NulFree a (ofLex x).1 ∧ NulFreeInside b (ofLex x).2
  | .triple a b c, x => NulFree a (ofLex x).1 ∧ NulFree b (ofLex (ofLex x).2).1 ∧
      NulFreeInside c (ofLex (ofLex x).2).2
  | .str, _ => True
  | .unsigned _, _ => True
  | .signed _, _ => True
  | .bool, _ => True
  | .char, _ => True
  | .u48, _ => True
  | .localId, _ => True

theorem pair_lt {a b : KeyType} {x y : (KeyType.pair a b).Value} :
    x < y ↔ (ofLex x).1 < (ofLex y).1 ∨ (ofLex x).1 = (ofLex y).1 ∧ (ofLex x).2 < (ofLex y).2 :=
  Prod.Lex.lt_iff

theorem triple_lt {a b c : KeyType} {x y : (KeyType.triple a b c).Value} :
    x < y ↔ (ofLex x).1 < (ofLex y).1 ∨ (ofLex x).1 = (ofLex y).1 ∧
      ((ofLex (ofLex x).2).1 < (ofLex (ofLex y).2).1 ∨
        (ofLex (ofLex x).2).1 = (ofLex (ofLex y).2).1 ∧
          (ofLex (ofLex x).2).2 < (ofLex (ofLex y).2).2) :=
  Prod.Lex.lt_iff.trans (or_congr_right (and_congr_right fun _ => Prod.Lex.lt_iff))

theorem pair_eq {a b : KeyType} {x y : (KeyType.pair a b).Value} :
    x = y ↔ (ofLex x).1 = (ofLex y).1 ∧ (ofLex x).2 = (ofLex y).2 :=
  (Equiv.apply_eq_iff_eq ofLex).symm.trans Prod.ext_iff

theorem triple_eq {a b c : KeyType} {x y : (KeyType.triple a b c).Value} :
    x = y ↔ (ofLex x).1 = (ofLex y).1 ∧ (ofLex (ofLex x).2).1 = (ofLex (ofLex y).2).1 ∧
      (ofLex (ofLex x).2).2 = (ofLex (ofLex y).2).2 :=
  (pair_eq (a := a) (b := .pair b c)).trans (and_congr_right fun _ => pair_eq)

theorem framed (t : KeyType) {x y : t.Value} (hx : NulFree t x) (hy : NulFree t y) :
    Framed t x y := by
  induction t with
  | unsigned width => exact framed_unsigned width x y
  | signed width => exact framed_signed width x y
  | bool => exact framed_bool x y
  | char => exact framed_char x y
  | u48 => exact framed_u48 x y
  | localId => exact framed_localId x y
  | str => exact framed_str x y hx hy
  | ref target ih => exact ih hx hy
  | pair a b iha ihb =>
    intro u v
    rw [keyBytes_pair, keyBytes_pair, List.append_assoc, List.append_assoc,
      iha hx.1 hy.1, ihb hx.2 hy.2, pair_lt, pair_eq]
    tauto
  | triple a b c iha ihb ihc =>
    intro u v
    rw [keyBytes_triple, keyBytes_triple, List.append_assoc, List.append_assoc,
      List.append_assoc, List.append_assoc, iha hx.1 hy.1, ihb hx.2.1 hy.2.1,
      ihc hx.2.2 hy.2.2, triple_lt, triple_eq]
    tauto

theorem keyBytes_lt (t : KeyType) {x y : t.Value} (hx : NulFreeInside t x)
    (hy : NulFreeInside t y) : keyBytes t x < keyBytes t y ↔ x < y := by
  induction t with
  | unsigned width | signed width | bool | char | u48 | localId =>
    simpa using framed _ (x := x) (y := y) trivial trivial [] []
  | str => exact terminated_last_lt (Str.bytes x) (Str.bytes y)
  | ref target ih => exact ih hx hy
  | pair a b iha ihb =>
    rw [keyBytes_pair, keyBytes_pair, framed a hx.1 hy.1, ihb hx.2 hy.2, pair_lt]
  | triple a b c iha ihb ihc =>
    rw [keyBytes_triple, keyBytes_triple, framed a hx.1 hy.1, framed b hx.2.1 hy.2.1,
      ihc hx.2.2 hy.2.2, triple_lt]

def flagged (text : String) (flag : Bool) : (KeyType.pair .str .bool).Value :=
  toLex ((⟨text⟩ : Str), flag)

end WaveDb.Index
