import WaveDb.Wire.Project
import WaveDb.Wire.Termination

-- Decoders of parts of a value, and types of the program as wire types: what a
-- value is sent as, and which value is read back.
namespace WaveDb.Wire

open WaveDb.Lib

variable {Γ : Env} {X Y Z : Type}

structure Cursor.Stands (c : Cursor) (bytes : List UInt8) : Prop where
  rest : c.rest = bytes
  inBounds : c.InBounds

namespace Cursor.Stands

theorem new (bytes : List UInt8) : (Cursor.new bytes).Stands bytes :=
  ⟨Cursor.rest_new bytes, Cursor.inBounds_new bytes⟩

theorem skip {c : Cursor} {a b : List UInt8} {n : Nat} (h : c.Stands (a ++ b)) (hn : a.length = n) :
    (c.skip n).Stands b := by
  refine ⟨Cursor.rest_skip h.rest hn, ?_⟩
  have hlen : c.rest.length = c.buf.length - c.pos := List.length_drop
  rw [h.rest, List.length_append] at hlen
  have hin : c.pos ≤ c.buf.length := h.inBounds
  change c.pos + n ≤ c.buf.length
  omega

theorem checkedTake {c : Cursor} {a b : List UInt8} {n : Nat} (h : c.Stands (a ++ b))
    (hn : a.length = n) : c.checkedTake n = .ok (a, c.skip n) := by
  have htake := Cursor.take_eq h.rest hn
  rcases Cursor.take_cases h.inBounds n with ⟨ht, -⟩ | ⟨bytes, -, -, -, ht, hc⟩
  · exact nomatch htake.symm.trans ht
  · obtain ⟨rfl, -⟩ := Prod.mk.inj (Except.ok.inj (htake.symm.trans ht))
    exact hc

theorem checkedU8 {c : Cursor} {byte : UInt8} {b : List UInt8} (h : c.Stands (byte :: b)) :
    c.checkedU8 = .ok (byte, c.skip 1) := by
  have htake : c.checkedTake 1 = .ok ([byte], c.skip 1) :=
    checkedTake (show c.Stands ([byte] ++ b) from h) rfl
  rw [Cursor.checkedU8, htake]
  rfl

end Cursor.Stands

def Reader (X : Type) : Type := Cursor → Cursor → Except Fault (X × Cursor × Cursor)

namespace Reader

instance : Monad Reader where
  pure x := fun stack heap => .ok (x, stack, heap)
  bind r f := fun stack heap =>
    match r stack heap with
    | .ok (x, stack, heap) => f x stack heap
    | .error e => .error e

-- A whole value: its stack, then its heap. What comes after is not looked at.
def fromWire (size : Nat) (r : Reader X) (bytes : List UInt8) : Except Fault X :=
  if bytes.length < size then .error (.wire .unexpectedEof)
  else do
    let (stack, heap) ← splitAt bytes size
    let (x, _, _) ← r (Cursor.new stack) (Cursor.new heap)
    return x

-- From cursors that stand at these bytes the reader takes them and returns `x`.
def Recovers (r : Reader X) (x : X) (s h : List UInt8) : Prop :=
  ∀ stack heap s' h', stack.Stands (s ++ s') → heap.Stands (h ++ h') →
    r stack heap = .ok (x, stack.skip s.length, heap.skip h.length)

-- A value or a wire error, the cursors in their buffers, on every heap of at most
-- `left` bytes.
def Answers (r : Reader X) (left : Nat) : Prop :=
  ∀ stack heap, stack.InBounds → heap.InBounds → heap.remaining ≤ left →
    (∃ e, r stack heap = .error (.wire e)) ∨
    ∃ x stack' heap', r stack heap = .ok (x, stack', heap') ∧ stack.Ahead stack' ∧ heap.Ahead heap'

theorem Recovers.pure (x : X) : Recovers (pure x) x [] [] := fun _ _ _ _ _ _ => rfl

theorem Recovers.bind {r : Reader X} {f : X → Reader Y} {x : X} {y : Y} {s h s' h' : List UInt8}
    (hr : r.Recovers x s h) (hf : (f x).Recovers y s' h') :
    (r >>= f).Recovers y (s ++ s') (h ++ h') := by
  intro stack heap s'' h'' hstack hheap
  rw [List.append_assoc] at hstack hheap
  change (match r stack heap with
    | .ok (x, stack, heap) => f x stack heap
    | .error e => .error e) = _
  rw [hr stack heap _ _ hstack hheap]
  change f x _ _ = _
  rw [hf _ _ _ _ (hstack.skip rfl) (hheap.skip rfl), Cursor.skip_skip, Cursor.skip_skip,
    List.length_append, List.length_append]

theorem Answers.pure (x : X) (left : Nat) : Answers (pure x) left :=
  fun stack heap hstack hheap _ => .inr ⟨x, stack, heap, rfl, .refl hstack, .refl hheap⟩

theorem Answers.bind {r : Reader X} {f : X → Reader Y} {left : Nat} (hr : r.Answers left)
    (hf : ∀ x, (f x).Answers left) : (r >>= f).Answers left := by
  intro stack heap hstack hheap hleft
  change (∃ e, (match r stack heap with
    | .ok (x, stack, heap) => f x stack heap
    | .error e => .error e) = .error (.wire e)) ∨ ∃ y stack' heap', (match r stack heap with
    | .ok (x, stack, heap) => f x stack heap
    | .error e => .error e) = .ok (y, stack', heap') ∧ stack.Ahead stack' ∧ heap.Ahead heap'
  rcases hr stack heap hstack hheap hleft with ⟨e, he⟩ | ⟨x, stack', heap', hx, hs, hh⟩
  · exact .inl ⟨e, by rw [he]⟩
  · rw [hx]
    rcases hf x stack' heap' hs.inBounds hh.inBounds (hh.remaining_le.trans hleft) with
      ⟨e, he⟩ | ⟨y, stack'', heap'', hy, hs', hh'⟩
    · exact .inl ⟨e, he⟩
    · exact .inr ⟨y, stack'', heap'', hy, hs.trans hs', hh.trans hh'⟩

theorem Recovers.fromWire {r : Reader X} {x : X} {s h : List UInt8} {size : Nat}
    (hr : r.Recovers x s h) (hsize : s.length = size) : r.fromWire size (s ++ h) = .ok x := by
  subst hsize
  have hlen : ¬(s ++ h).length < s.length := by
    rw [List.length_append]
    omega
  have hsplit : splitAt (s ++ h) s.length = .ok (s, h) := by
    rw [splitAt, if_pos (by omega), List.take_left, List.drop_left]
  have hread := hr (Cursor.new s) (Cursor.new h) [] []
    (by rw [List.append_nil]; exact .new s) (by rw [List.append_nil]; exact .new h)
  rw [Reader.fromWire, if_neg hlen, hsplit]
  change (r (Cursor.new s) (Cursor.new h) >>= fun v => .ok v.1) = .ok x
  rw [hread]
  rfl

end Reader

-- A whole decode with an answer: a value, or an error of the wire.
def Answered (r : Except Fault X) : Prop := (∃ e, r = .error (.wire e)) ∨ ∃ x, r = .ok x

theorem Reader.Answers.fromWire {r : Reader X} {size left : Nat} {bytes : List UInt8}
    (hr : r.Answers left) (hle : bytes.length ≤ left) : Answered (r.fromWire size bytes) := by
  by_cases hlen : bytes.length < size
  · exact .inl ⟨_, by rw [Reader.fromWire, if_pos hlen]⟩
  · have hsplit : splitAt bytes size = .ok (bytes.take size, bytes.drop size) := if_pos (by omega)
    have hleft : (Cursor.new (bytes.drop size)).remaining ≤ left := by
      simp only [Cursor.remaining, Cursor.new, List.length_drop]
      omega
    rw [Reader.fromWire, if_neg hlen, hsplit]
    change Answered (r _ _ >>= fun v => .ok v.1)
    rcases hr _ _ (Cursor.inBounds_new (bytes.take size)) (Cursor.inBounds_new _) hleft with
      ⟨e, he⟩ | ⟨x, _, _, hx, -, -⟩
    · rw [he]
      exact .inl ⟨e, rfl⟩
    · rw [hx]
      exact .inr ⟨x, rfl⟩

-- `Fits` is what the machine type of a value guarantees.
structure Codec (Γ : Env) (X : Type) where
  ty : WireTy
  toVal : X → Val Γ ty
  ofVal : Val Γ ty → X
  Fits : X → Prop
  ofVal_toVal : ∀ x, Fits x → ofVal (toVal x) = x

namespace Codec

def uint (s : Scalar) : Codec Γ Nat where
  ty := .scalar s
  toVal n := .scalar (BitVec.ofNat _ n)
  ofVal v := (scalarBits v).toNat
  Fits n := n < 2 ^ (8 * s.size)
  ofVal_toVal n h := by
    rw [scalarBits, BitVec.toNat_ofNat, Nat.mod_eq_of_lt h]

def of (Γ : Env) (ty : WireTy) : Codec Γ (Val Γ ty) where
  ty := ty
  toVal v := v
  ofVal v := v
  Fits _ := True
  ofVal_toVal _ _ := rfl

def byte : Codec Γ UInt8 where
  ty := .scalar .u8
  toVal b := .scalar b.toBitVec
  ofVal v := ⟨scalarBits v⟩
  Fits _ := True
  ofVal_toVal _ _ := rfl

def bool : Codec Γ Bool where
  ty := .bool
  toVal b := .bool b
  ofVal
    | .bool b => b
  Fits _ := True
  ofVal_toVal _ _ := rfl

def option (c : Codec Γ X) : Codec Γ (Option X) where
  ty := .option c.ty
  toVal
    | none => .none
    | some x => .some (c.toVal x)
  ofVal
    | .none => none
    | .some v => some (c.ofVal v)
  Fits o := ∀ x, o = some x → c.Fits x
  ofVal_toVal
    | none, _ => rfl
    | some x, h => congrArg some (c.ofVal_toVal x (h x rfl))

def pair (c : Codec Γ X) (d : Codec Γ Y) : Codec Γ (X × Y) where
  ty := .tuple [c.ty, d.ty]
  toVal x := .tuple (.cons (c.toVal x.1) (.cons (d.toVal x.2) .nil))
  ofVal v := (c.ofVal (headField (tupleFields v)), d.ofVal (headField (tailFields (tupleFields v))))
  Fits x := c.Fits x.1 ∧ d.Fits x.2
  ofVal_toVal x h := Prod.ext (c.ofVal_toVal x.1 h.1) (d.ofVal_toVal x.2 h.2)

def triple (c : Codec Γ X) (d : Codec Γ Y) (e : Codec Γ Z) : Codec Γ (X × Y × Z) where
  ty := .tuple [c.ty, d.ty, e.ty]
  toVal x := .tuple (.cons (c.toVal x.1) (.cons (d.toVal x.2.1) (.cons (e.toVal x.2.2) .nil)))
  ofVal v := (c.ofVal (headField (tupleFields v)), d.ofVal (headField (tailFields (tupleFields v))),
    e.ofVal (headField (tailFields (tailFields (tupleFields v)))))
  Fits x := c.Fits x.1 ∧ d.Fits x.2.1 ∧ e.Fits x.2.2
  ofVal_toVal x h := Prod.ext (c.ofVal_toVal x.1 h.1)
    (Prod.ext (d.ofVal_toVal x.2.1 h.2.1) (e.ofVal_toVal x.2.2 h.2.2))

def units (c : Codec Γ X) : List X → Units Γ c.ty
  | [] => .nil
  | x :: xs => .cons (c.toVal x) (units c xs)

def ofUnits (c : Codec Γ X) : Units Γ c.ty → List X
  | .nil => []
  | .cons v rest => c.ofVal v :: ofUnits c rest

theorem ofUnits_units (c : Codec Γ X) {xs : List X} (h : ∀ x ∈ xs, c.Fits x) :
    c.ofUnits (c.units xs) = xs := by
  induction xs with
  | nil => rw [units, ofUnits]
  | cons x xs ih =>
    rw [units, ofUnits, c.ofVal_toVal x (h x List.mem_cons_self),
      ih fun y hy => h y (List.mem_cons_of_mem _ hy)]

def list (c : Codec Γ X) : Codec Γ (List X) where
  ty := .vec c.ty
  toVal xs := .vec (c.units xs)
  ofVal v := c.ofUnits (vecUnits v)
  Fits xs := ∀ x ∈ xs, c.Fits x
  ofVal_toVal _ h := c.ofUnits_units h

def bytes : Codec Γ (List UInt8) := byte.list

def iso (c : Codec Γ X) (f : Y → X) (g : X → Y) (h : ∀ y, c.Fits (f y) → g (f y) = y) :
    Codec Γ Y where
  ty := c.ty
  toVal y := c.toVal (f y)
  ofVal v := g (c.ofVal v)
  Fits y := c.Fits (f y)
  ofVal_toVal y hy := by rw [c.ofVal_toVal _ hy, h y hy]

end Codec

namespace Codec

variable (c : Codec Γ X)

def stack (x : X) : List UInt8 := (c.toVal x).encodeStack

def heap (x : X) : List UInt8 := (c.toVal x).encodeHeap

def encode (x : X) : List UInt8 := c.stack x ++ c.heap x

def size : Nat := Γ.stackSize c.ty

def read (fuel : Nat) : Reader X := fun stack heap => do
  let (v, stack, heap, _) ← trace fuel c.ty stack heap
  return (c.ofVal v, stack, heap)

def decode (fuel : Nat) (bytes : List UInt8) : Except Fault X := (c.read fuel).fromWire c.size bytes

theorem length_stack (x : X) : (c.stack x).length = c.size := (c.toVal x).length_encodeStack

theorem eventually_recovers (hΓ : Γ.UnitsSized) (hty : c.ty.UnitsSized Γ) {x : X} (hfits : c.Fits x)
    (hheap : (c.heap x).length < 2 ^ 32) :
    ∀ᶠ fuel in Filter.atTop, (c.read fuel).Recovers x (c.stack x) (c.heap x) := by
  rw [heap, Val.length_encodeHeap] at hheap
  refine Filter.eventually_atTop.mpr ⟨(c.toVal x).depth, fun fuel hfuel stack heap s h hs hh => ?_⟩
  have hdec := (c.toVal x).reads hΓ hty hheap fuel hfuel stack heap s h hs.rest hh.rest
  have hfollows := trace_follows (Γ := Γ) fuel c.ty stack heap hs.inBounds hh.inBounds
  rw [hdec] at hfollows
  rw [read, c.length_stack, Codec.heap, Val.length_encodeHeap]
  generalize trace fuel c.ty stack heap = t at hfollows
  cases hfollows with
  | ok _ _ _ =>
    change Except.ok (c.ofVal (c.toVal x), _, _) = _
    rw [c.ofVal_toVal x hfits]
    rfl

theorem eventually_answers (hΓ : Γ.UnitsSized) (hfounded : Γ.Founded)
    (hty : c.ty.UnitsSized Γ) (left : Nat) :
    ∀ᶠ fuel in Filter.atTop, (c.read fuel).Answers left := by
  obtain ⟨bound, hbound⟩ := ends hΓ hfounded left c.ty hty
  refine Filter.eventually_atTop.mpr ⟨bound, fun fuel hfuel stack heap hstack hheap hleft => ?_⟩
  have hends := hbound fuel hfuel stack heap hstack hheap hleft
  have hfollows := trace_follows (Γ := Γ) fuel c.ty stack heap hstack hheap
  rw [read]
  generalize Wire.decode fuel c.ty stack heap = d at hends hfollows
  generalize trace fuel c.ty stack heap = t at hfollows
  cases hfollows with
  | stop s =>
    cases s with
    | error e => exact .inl ⟨e, rfl⟩
    | fuel => exact absurd rfl hends
  | ok hs hh _ => exact .inr ⟨_, _, _, rfl, hs, hh⟩

theorem eventually_decode_encode (hΓ : Γ.UnitsSized) (hty : c.ty.UnitsSized Γ) {x : X} (hfits : c.Fits x)
    (hsize : (c.encode x).length < 2 ^ 32) :
    ∀ᶠ fuel in Filter.atTop, c.decode fuel (c.encode x) = .ok x := by
  have hheap : (c.heap x).length < 2 ^ 32 := by
    rw [encode, List.length_append] at hsize
    omega
  filter_upwards [c.eventually_recovers hΓ hty hfits hheap] with fuel hfuel
  exact hfuel.fromWire (c.length_stack x)

theorem eventually_answered (hΓ : Γ.UnitsSized) (hfounded : Γ.Founded)
    (hty : c.ty.UnitsSized Γ) (left : Nat) :
    ∀ᶠ fuel in Filter.atTop, ∀ bytes : List UInt8, bytes.length ≤ left →
      Answered (c.decode fuel bytes) := by
  filter_upwards [c.eventually_answers hΓ hfounded hty left] with fuel hfuel bytes hle
  exact hfuel.fromWire hle

end Codec

end WaveDb.Wire
