import WaveDb.Wire.RoundTrip

-- Decoding with what could go wrong besides a wire error: a slice out of range, an
-- index or a conversion that does not fit.
namespace WaveDb.Wire

open WaveDb.Lib

inductive Fault
  | wire (e : Error)
  | fuel
  | panic
  deriving DecidableEq, Repr

def Stop.fault : Stop → Fault
  | .error e => .wire e
  | .fuel => .fuel

structure Declared where
  len : Nat
  left : Nat
  deriving DecidableEq, Repr

def slice (buf : List UInt8) (lo hi : Nat) : Except Fault (List UInt8) :=
  if lo ≤ hi ∧ hi ≤ buf.length then .ok ((buf.drop lo).take (hi - lo)) else .error .panic

def splitAt (buf : List UInt8) (mid : Nat) : Except Fault (List UInt8 × List UInt8) :=
  if mid ≤ buf.length then .ok (buf.take mid, buf.drop mid) else .error .panic

namespace Cursor

-- The subtraction of `remaining` must not go below zero.
def checkedRemaining (c : Cursor) : Except Fault Nat :=
  if c.pos ≤ c.buf.length then .ok (c.buf.length - c.pos) else .error .panic

def checkedTake (c : Cursor) (n : Nat) : Except Fault (List UInt8 × Cursor) := do
  let remaining ← c.checkedRemaining
  if remaining < n then .error (.wire .unexpectedEof)
  else
    let s ← slice c.buf c.pos (c.pos + n)
    return (s, { c with pos := c.pos + n })

def checkedU8 (c : Cursor) : Except Fault (UInt8 × Cursor) := do
  let (bytes, c) ← c.checkedTake 1
  match bytes with
  | byte :: _ => return (byte, c)
  | [] => .error .panic

def checkedArray (c : Cursor) (n : Nat) : Except Fault (List UInt8 × Cursor) := do
  let (bytes, c) ← c.checkedTake n
  if bytes.length = n then return (bytes, c) else .error .panic

def checkedU32 (c : Cursor) : Except Fault (Nat × Cursor) := do
  let (bytes, c) ← c.checkedArray 4
  return (ofLeBytes bytes, c)

def takeDeclared (c : Cursor) (len : Nat) : Except Fault (List UInt8 × Cursor × Declared) := do
  let left ← c.checkedRemaining
  let (bytes, c) ← c.checkedTake len
  return (bytes, c, ⟨len, left⟩)

end Cursor

variable {Γ : Env}

section Trace

variable (nested : (ty : WireTy) → Cursor → Cursor →
  Except Fault (Val Γ ty × Cursor × Cursor × List Declared))

def traceFields : (tys : List WireTy) → Cursor → Cursor →
    Except Fault (Fields Γ tys × Cursor × Cursor × List Declared)
  | [], stack, heap => return (.nil, stack, heap, [])
  | ty :: tys, stack, heap => do
      let (v, stack, heap, log) ← nested ty stack heap
      let (rest, stack, heap, logs) ← traceFields tys stack heap
      return (.cons v rest, stack, heap, log ++ logs)

def traceUnits (elem : WireTy) (region : List UInt8) : Nat → Nat →
    Except Fault (Units Γ elem × List Declared)
  | 0, cur => if cur < region.length then .error .fuel else return (.nil, [])
  | rounds + 1, cur =>
    if cur < region.length then
      if cur + Γ.stackSize elem > region.length then .error (.wire .unexpectedEof)
      else do
        let es ← slice region cur (cur + Γ.stackSize elem)
        let eh ← slice region (cur + Γ.stackSize elem) region.length
        let (v, _, eh, log) ← nested elem (Cursor.new es) (Cursor.new eh)
        let (rest, logs) ← traceUnits elem region rounds (cur + (Γ.stackSize elem + eh.pos))
        return (.cons v rest, log ++ logs)
    else return (.nil, [])

def traceVariant {name : Nat} {variants : List Variant} {h : variants.length ≤ 256}
    (hdecl : Γ.decl name = .enum variants h) (tag : UInt8) (payload : List UInt8) :
    Except Fault (Val Γ (.derived name) × List Declared) :=
  match htag : variants[tag.toNat]? with
  | none => .error (.wire (.invalidTag tag))
  | some .unit => return (.unit hdecl tag.toNat htag, [])
  | some (.fields tys) =>
    if payload.length < Γ.stackSizes tys then .error (.wire .unexpectedEof)
    else do
      let (vs, vh) ← splitAt payload (Γ.stackSizes tys)
      let (fields, _, _, log) ← traceFields nested tys (Cursor.new vs) (Cursor.new vh)
      return (.variant hdecl tag.toNat htag fields, log)

def traceDerived (name : Nat) (stack heap : Cursor) :
    Except Fault (Val Γ (.derived name) × Cursor × Cursor × List Declared) :=
  match hdecl : Γ.decl name with
  | .struct tys => do
      let (fields, stack, heap, log) ← traceFields nested tys stack heap
      return (.struct hdecl fields, stack, heap, log)
  | .enum variants _ =>
    if variants.any Variant.hasFields then do
      let (tag, stack) ← stack.checkedU8
      let (payloadLen, stack) ← stack.checkedU32
      let (payload, heap, declared) ← heap.takeDeclared payloadLen
      let (v, log) ← traceVariant nested hdecl tag payload
      return (v, stack, heap, declared :: log)
    else do
      let (tag, stack) ← stack.checkedU8
      let (v, log) ← traceVariant nested hdecl tag []
      return (v, stack, heap, log)

end Trace

def trace : Nat → (ty : WireTy) → Cursor → Cursor →
    Except Fault (Val Γ ty × Cursor × Cursor × List Declared)
  | 0, _, _, _ => .error .fuel
  | _ + 1, .scalar s, stack, heap => do
      let (bytes, stack) ← stack.checkedArray s.size
      return (.scalar (BitVec.ofNat _ (ofLeBytes bytes)), stack, heap, [])
  | _ + 1, .bool, stack, heap => do
      let (byte, stack) ← stack.checkedU8
      if byte = 0 then return (.bool false, stack, heap, [])
      else if byte = 1 then return (.bool true, stack, heap, [])
      else .error (.wire (.invalidBool byte))
  | _ + 1, .char, stack, heap => do
      let (scalar, stack) ← stack.checkedU32
      match charFromU32 scalar with
      | some c => return (.char c, stack, heap, [])
      | none => .error (.wire (.invalidChar scalar))
  | _ + 1, .string, stack, heap => do
      let (len, stack) ← stack.checkedU32
      let (bytes, heap, declared) ← heap.takeDeclared len
      match String.fromUTF8? ⟨bytes.toArray⟩ with
      | some s => return (.string s, stack, heap, [declared])
      | none => .error (.wire .utf8)
  | fuel + 1, .vec elem, stack, heap => do
      let (regionLen, stack) ← stack.checkedU32
      let (region, heap, declared) ← heap.takeDeclared regionLen
      let (units, log) ← traceUnits (trace fuel) elem region region.length 0
      return (.vec units, stack, heap, declared :: log)
  | fuel + 1, .option inner, stack, heap => do
      let (flag, stack) ← stack.checkedU8
      if flag = 0 then return (.none, stack, heap, [])
      else
        let (tStack, heap) ← heap.checkedTake (Γ.stackSize inner)
        let (v, _, heap, log) ← trace fuel inner (Cursor.new tStack) heap
        return (.some v, stack, heap, log)
  | fuel + 1, .array elem n, stack, heap => do
      let (elems, stack, heap, log) ← traceFields (trace fuel) (List.replicate n elem) stack heap
      return (.array elems, stack, heap, log)
  | fuel + 1, .tuple tys, stack, heap => do
      let (fields, stack, heap, log) ← traceFields (trace fuel) tys stack heap
      return (.tuple fields, stack, heap, log)
  | fuel + 1, .derived name, stack, heap => traceDerived (trace fuel) name stack heap

def traceWire (fuel : Nat) (ty : WireTy) (bytes : List UInt8) :
    Except Fault (Val Γ ty × List Declared) :=
  if bytes.length < Γ.stackSize ty then .error (.wire .unexpectedEof)
  else do
    let (stack, heap) ← splitAt bytes (Γ.stackSize ty)
    let (v, _, _, log) ← trace fuel ty (Cursor.new stack) (Cursor.new heap)
    return (v, log)

namespace Cursor

def InBounds (c : Cursor) : Prop := c.pos ≤ c.buf.length

structure Ahead (c c' : Cursor) : Prop where
  buf : c'.buf = c.buf
  pos : c.pos ≤ c'.pos
  inBounds : c'.InBounds

theorem inBounds_new (buf : List UInt8) : (new buf).InBounds := Nat.zero_le _

theorem Ahead.refl {c : Cursor} (h : c.InBounds) : c.Ahead c := ⟨rfl, Nat.le_refl _, h⟩

theorem Ahead.trans {c c' c'' : Cursor} (h : c.Ahead c') (h' : c'.Ahead c'') : c.Ahead c'' :=
  ⟨h'.buf.trans h.buf, h.pos.trans h'.pos, h'.inBounds⟩

theorem Ahead.remaining_le {c c' : Cursor} (h : c.Ahead c') : c'.remaining ≤ c.remaining := by
  have hpos := h.pos
  rw [remaining, remaining, h.buf]
  omega

section Checked

variable {c : Cursor}

theorem checkedRemaining_eq (h : c.InBounds) : c.checkedRemaining = .ok c.remaining := if_pos h

theorem slice_eq (buf : List UInt8) {lo hi : Nat} (hlo : lo ≤ hi) (hhi : hi ≤ buf.length) :
    slice buf lo hi = .ok ((buf.drop lo).take (hi - lo)) := if_pos ⟨hlo, hhi⟩

-- Both ways of taking bytes: too few are left, or the slice is in range.
theorem take_cases (h : c.InBounds) (n : Nat) :
    c.take n = .error (.error .unexpectedEof) ∧ c.checkedTake n = .error (.wire .unexpectedEof) ∨
    ∃ bytes, bytes.length = n ∧ n ≤ c.remaining ∧ c.Ahead (c.skip n) ∧
      c.take n = .ok (bytes, c.skip n) ∧ c.checkedTake n = .ok (bytes, c.skip n) := by
  have hrem : c.remaining = c.buf.length - c.pos := rfl
  have hin : c.pos ≤ c.buf.length := h
  by_cases hn : c.remaining < n
  · left
    refine ⟨if_pos hn, ?_⟩
    simp only [checkedTake, checkedRemaining_eq h, bind, Except.bind, if_pos hn]
  · right
    refine ⟨(c.buf.drop c.pos).take n, ?_, by omega, ⟨rfl, Nat.le_add_right _ _, ?_⟩, if_neg hn, ?_⟩
    · rw [List.length_take, List.length_drop]
      omega
    · change c.pos + n ≤ c.buf.length
      omega
    · have hslice : slice c.buf c.pos (c.pos + n) = .ok ((c.buf.drop c.pos).take n) := by
        rw [slice_eq _ (Nat.le_add_right _ _) (by omega), Nat.add_sub_cancel_left]
      simp only [checkedTake, checkedRemaining_eq h, bind, Except.bind, if_neg hn, hslice]
      rfl

theorem u8_cases (h : c.InBounds) :
    c.u8 = .error (.error .unexpectedEof) ∧ c.checkedU8 = .error (.wire .unexpectedEof) ∨
    ∃ byte, c.Ahead (c.skip 1) ∧ c.u8 = .ok (byte, c.skip 1) ∧
      c.checkedU8 = .ok (byte, c.skip 1) := by
  rcases take_cases h 1 with ⟨ht, hc⟩ | ⟨bytes, hlen, -, hahead, ht, hc⟩
  · left
    exact ⟨by rw [u8, ht]; rfl, by rw [checkedU8, hc]; rfl⟩
  · right
    obtain ⟨byte, rfl⟩ := List.length_eq_one_iff.mp hlen
    exact ⟨byte, hahead, by rw [u8, ht]; rfl, by rw [checkedU8, hc]; rfl⟩

theorem array_cases (h : c.InBounds) (n : Nat) :
    c.take n = .error (.error .unexpectedEof) ∧ c.checkedArray n = .error (.wire .unexpectedEof) ∨
    ∃ bytes, c.Ahead (c.skip n) ∧ c.take n = .ok (bytes, c.skip n) ∧
      c.checkedArray n = .ok (bytes, c.skip n) := by
  rcases take_cases h n with ⟨ht, hc⟩ | ⟨bytes, hlen, -, hahead, ht, hc⟩
  · left
    exact ⟨ht, by rw [checkedArray, hc]; rfl⟩
  · right
    refine ⟨bytes, hahead, ht, ?_⟩
    simp only [checkedArray, hc, bind, Except.bind, if_pos hlen]
    rfl

theorem u32_cases (h : c.InBounds) :
    c.u32 = .error (.error .unexpectedEof) ∧ c.checkedU32 = .error (.wire .unexpectedEof) ∨
    ∃ value, c.Ahead (c.skip 4) ∧ c.u32 = .ok (value, c.skip 4) ∧
      c.checkedU32 = .ok (value, c.skip 4) := by
  rcases array_cases h 4 with ⟨ht, hc⟩ | ⟨bytes, hahead, ht, hc⟩
  · left
    exact ⟨by rw [u32, ht]; rfl, by rw [checkedU32, hc]; rfl⟩
  · right
    exact ⟨ofLeBytes bytes, hahead, by rw [u32, ht]; rfl, by rw [checkedU32, hc]; rfl⟩

theorem declared_cases (h : c.InBounds) (len : Nat) :
    c.take len = .error (.error .unexpectedEof) ∧
      c.takeDeclared len = .error (.wire .unexpectedEof) ∨
    ∃ bytes, bytes.length = len ∧ len ≤ c.remaining ∧ c.Ahead (c.skip len) ∧
      c.take len = .ok (bytes, c.skip len) ∧
      c.takeDeclared len = .ok (bytes, c.skip len, ⟨len, c.remaining⟩) := by
  rcases take_cases h len with ⟨ht, hc⟩ | ⟨bytes, hlen, hle, hahead, ht, hc⟩
  · left
    exact ⟨ht, by rw [takeDeclared, checkedRemaining_eq h]; simp only [bind, Except.bind, hc]⟩
  · right
    refine ⟨bytes, hlen, hle, hahead, ht, ?_⟩
    rw [takeDeclared, checkedRemaining_eq h]
    simp only [bind, Except.bind, hc]
    rfl

end Checked

end Cursor

-- Every length of a log was there, in a heap of at most `left` bytes.
def Fitted (left : Nat) (log : List Declared) : Prop := ∀ d ∈ log, d.len ≤ d.left ∧ d.left ≤ left

section Fitted

variable {left : Nat} {log logs : List Declared}

theorem fitted_nil : Fitted left [] := nofun

theorem Fitted.append (h : Fitted left log) (h' : Fitted left logs) : Fitted left (log ++ logs) :=
  List.forall_mem_append.mpr ⟨h, h'⟩

theorem Fitted.cons {d : Declared} (hd : d.len ≤ d.left ∧ d.left ≤ left) (h : Fitted left log) :
    Fitted left (d :: log) := List.forall_mem_cons.mpr ⟨hd, h⟩

theorem Fitted.mono {left' : Nat} (h : Fitted left log) (hle : left ≤ left') : Fitted left' log :=
  fun d hd => ⟨(h d hd).1, (h d hd).2.trans hle⟩

end Fitted

-- A traced decode does what the decode does: it stops with the same error, or
-- returns the same value and cursors, which are still inside their buffers.
inductive Follows {α : Type} (stack heap : Cursor) : Except Stop (α × Cursor × Cursor) →
    Except Fault (α × Cursor × Cursor × List Declared) → Prop
  | stop (s : Stop) : Follows stack heap (.error s) (.error s.fault)
  | ok {a : α} {stack' heap' : Cursor} {log : List Declared} (hstack : stack.Ahead stack')
      (hheap : heap.Ahead heap') (hlog : Fitted heap.remaining log) :
      Follows stack heap (.ok (a, stack', heap')) (.ok (a, stack', heap', log))

section Follows

variable {fuel : Nat} {stack heap : Cursor}

def NestedFollow (dec : (ty : WireTy) → Cursor → Cursor → Except Stop (Val Γ ty × Cursor × Cursor))
    (tr : (ty : WireTy) → Cursor → Cursor →
      Except Fault (Val Γ ty × Cursor × Cursor × List Declared)) : Prop :=
  ∀ ty stack heap, stack.InBounds → heap.InBounds →
    Follows stack heap (dec ty stack heap) (tr ty stack heap)

variable {dec : (ty : WireTy) → Cursor → Cursor → Except Stop (Val Γ ty × Cursor × Cursor)}
  {tr : (ty : WireTy) → Cursor → Cursor → Except Fault (Val Γ ty × Cursor × Cursor × List Declared)}

theorem traceFields_follows (hnested : NestedFollow dec tr) (tys : List WireTy)
    (hstack : stack.InBounds) (hheap : heap.InBounds) :
    Follows stack heap (decodeFields dec tys stack heap) (traceFields tr tys stack heap) := by
  induction tys generalizing stack heap with
  | nil => exact .ok (.refl hstack) (.refl hheap) fitted_nil
  | cons ty tys ih =>
    have hv := hnested ty stack heap hstack hheap
    rw [decodeFields, traceFields]
    generalize dec ty stack heap = d at hv ⊢
    generalize tr ty stack heap = t at hv ⊢
    cases hv with
    | stop s => exact .stop s
    | ok hs hh hlog =>
      have hrest := ih hs.inBounds hh.inBounds
      simp only [bind, Except.bind]
      generalize decodeFields dec tys _ _ = d at hrest ⊢
      generalize traceFields tr tys _ _ = t at hrest ⊢
      cases hrest with
      | stop s => exact .stop s
      | ok hs' hh' hlog' =>
        exact .ok (hs.trans hs') (hh.trans hh') (hlog.append (hlog'.mono hh.remaining_le))

inductive FollowsWhole {α : Type} (left : Nat) : Except Stop α →
    Except Fault (α × List Declared) → Prop
  | stop (s : Stop) : FollowsWhole left (.error s) (.error s.fault)
  | ok {a : α} {log : List Declared} (hlog : Fitted left log) :
      FollowsWhole left (.ok a) (.ok (a, log))

theorem traceUnits_follows (hnested : NestedFollow dec tr) (elem : WireTy) (region : List UInt8)
    (rounds cur : Nat) : FollowsWhole region.length (decodeUnits dec elem region rounds cur)
      (traceUnits tr elem region rounds cur) := by
  induction rounds generalizing cur with
  | zero =>
    rw [decodeUnits, traceUnits]
    split
    · exact .stop .fuel
    · exact .ok fitted_nil
  | succ rounds ih =>
    rw [decodeUnits, traceUnits]
    split
    · split
      · exact .stop (.error .unexpectedEof)
      · have hes := Cursor.slice_eq region (Nat.le_add_right cur (Γ.stackSize elem))
          (by omega)
        have heh : slice region (cur + Γ.stackSize elem) region.length = _ :=
          Cursor.slice_eq region (by omega) (Nat.le_refl _)
        rw [Nat.add_sub_cancel_left] at hes
        rw [List.take_of_length_le (by rw [List.length_drop])] at heh
        have hv := hnested elem (Cursor.new ((region.drop cur).take (Γ.stackSize elem)))
          (Cursor.new (region.drop (cur + Γ.stackSize elem))) (Cursor.inBounds_new _)
          (Cursor.inBounds_new _)
        simp only [bind, Except.bind, hes, heh]
        generalize dec elem _ _ = d at hv ⊢
        generalize tr elem _ _ = t at hv ⊢
        cases hv with
        | stop s => exact .stop s
        | @ok v es' eh' log hs hh hlog =>
          have hrest := ih (cur + (Γ.stackSize elem + eh'.pos))
          simp only
          generalize decodeUnits dec elem region rounds _ = d at hrest ⊢
          generalize traceUnits tr elem region rounds _ = t at hrest ⊢
          cases hrest with
          | stop s => exact .stop s
          | ok hlog' =>
            refine .ok ((hlog.mono ?_).append hlog')
            simp [Cursor.remaining, Cursor.new]
    · exact .ok fitted_nil

section Variants

variable {name : Nat} {variants : List Variant} {h : variants.length ≤ 256}
  (hdecl : Γ.decl name = .enum variants h) {tag : UInt8} (payload : List UInt8)

variable (dec tr) in
theorem variant_none (htag : variants[tag.toNat]? = none) :
    decodeVariant dec hdecl tag payload = .error (.error (.invalidTag tag)) ∧
    traceVariant tr hdecl tag payload = .error (.wire (.invalidTag tag)) := by
  constructor
  · unfold decodeVariant
    split <;> rename_i h' <;> rw [htag] at h' <;> cases h'
  · unfold traceVariant
    split <;> rename_i h' <;> rw [htag] at h' <;> cases h'

variable (dec tr) in
theorem variant_unit (htag : variants[tag.toNat]? = some .unit) :
    decodeVariant dec hdecl tag payload = .ok (.unit hdecl tag.toNat htag) ∧
    traceVariant tr hdecl tag payload = .ok (.unit hdecl tag.toNat htag, []) := by
  refine ⟨decodeVariant_unit hdecl tag rfl htag payload, ?_⟩
  unfold traceVariant
  split <;> rename_i h' <;> rw [htag] at h' <;> cases h'
  rfl

variable (dec tr) in
theorem variant_fields {tys : List WireTy} (htag : variants[tag.toNat]? = some (.fields tys)) :
    decodeVariant dec hdecl tag payload =
      (if payload.length < Γ.stackSizes tys then .error (.error .unexpectedEof)
      else do
        let (fields, _, _) ← decodeFields dec tys (Cursor.new (payload.take (Γ.stackSizes tys)))
          (Cursor.new (payload.drop (Γ.stackSizes tys)))
        return .variant hdecl tag.toNat htag fields) ∧
    traceVariant tr hdecl tag payload =
      (if payload.length < Γ.stackSizes tys then .error (.wire .unexpectedEof)
      else do
        let (vs, vh) ← splitAt payload (Γ.stackSizes tys)
        let (fields, _, _, log) ← traceFields tr tys (Cursor.new vs) (Cursor.new vh)
        return (.variant hdecl tag.toNat htag fields, log)) := by
  constructor
  · unfold decodeVariant
    split <;> rename_i h' <;> rw [htag] at h' <;> cases h'
    rfl
  · unfold traceVariant
    split <;> rename_i h' <;> rw [htag] at h' <;> cases h'
    rfl

variable (tag) in
theorem traceVariant_follows (hnested : NestedFollow dec tr) :
    FollowsWhole payload.length (decodeVariant dec hdecl tag payload)
      (traceVariant tr hdecl tag payload) := by
  cases htag : variants[tag.toNat]? with
  | none =>
    obtain ⟨hd, ht⟩ := variant_none dec tr hdecl payload htag
    rw [hd, ht]
    exact .stop _
  | some variant =>
    cases variant with
    | unit =>
      obtain ⟨hd, ht⟩ := variant_unit dec tr hdecl payload htag
      rw [hd, ht]
      exact .ok fitted_nil
    | fields tys =>
      obtain ⟨hd, ht⟩ := variant_fields dec tr hdecl payload htag
      rw [hd, ht]
      split
      · exact .stop (.error .unexpectedEof)
      · have hsplit : splitAt payload (Γ.stackSizes tys) =
            .ok (payload.take (Γ.stackSizes tys), payload.drop (Γ.stackSizes tys)) :=
          if_pos (by omega)
        have hfields := traceFields_follows hnested tys
          (Cursor.inBounds_new (payload.take (Γ.stackSizes tys)))
          (Cursor.inBounds_new (payload.drop (Γ.stackSizes tys)))
        simp only [bind, Except.bind, hsplit]
        generalize decodeFields dec tys _ _ = d at hfields ⊢
        generalize traceFields tr tys _ _ = t at hfields ⊢
        cases hfields with
        | stop s => exact .stop s
        | ok hs hh hlog =>
          refine .ok (hlog.mono ?_)
          simp [Cursor.remaining, Cursor.new]

end Variants

theorem traceDerived_struct {name : Nat} {tys : List WireTy} (hdecl : Γ.decl name = .struct tys)
    (stack heap : Cursor) :
    traceDerived tr name stack heap = (do
      let (fields, stack, heap, log) ← traceFields tr tys stack heap
      return (.struct hdecl fields, stack, heap, log)) := by
  unfold traceDerived
  split <;> rename_i h' <;> rw [hdecl] at h' <;> cases h'
  rfl

variable (dec tr) in
theorem derived_enum {name : Nat} {variants : List Variant} {h : variants.length ≤ 256}
    (hdecl : Γ.decl name = .enum variants h) (stack heap : Cursor) :
    decodeDerived dec name stack heap =
      (if variants.any Variant.hasFields then do
        let (tag, stack) ← stack.u8
        let (payloadLen, stack) ← stack.u32
        let (payload, heap) ← heap.take payloadLen
        let v ← decodeVariant dec hdecl tag payload
        return (v, stack, heap)
      else do
        let (tag, stack) ← stack.u8
        let v ← decodeVariant dec hdecl tag []
        return (v, stack, heap)) ∧
    traceDerived tr name stack heap =
      (if variants.any Variant.hasFields then do
        let (tag, stack) ← stack.checkedU8
        let (payloadLen, stack) ← stack.checkedU32
        let (payload, heap, declared) ← heap.takeDeclared payloadLen
        let (v, log) ← traceVariant tr hdecl tag payload
        return (v, stack, heap, declared :: log)
      else do
        let (tag, stack) ← stack.checkedU8
        let (v, log) ← traceVariant tr hdecl tag []
        return (v, stack, heap, log)) := by
  constructor
  · unfold decodeDerived
    split <;> rename_i h' <;> rw [hdecl] at h' <;> cases h'
    rfl
  · unfold traceDerived
    split <;> rename_i h' <;> rw [hdecl] at h' <;> cases h'
    rfl

theorem traceDerived_follows (hnested : NestedFollow dec tr) (name : Nat)
    (hstack : stack.InBounds) (hheap : heap.InBounds) :
    Follows stack heap (decodeDerived dec name stack heap) (traceDerived tr name stack heap) := by
  cases hdecl : Γ.decl name with
  | struct tys =>
    have hfields := traceFields_follows hnested tys hstack hheap
    rw [decodeDerived_struct hdecl, traceDerived_struct hdecl]
    generalize decodeFields dec tys stack heap = d at hfields ⊢
    generalize traceFields tr tys stack heap = t at hfields ⊢
    cases hfields with
    | stop s => exact .stop s
    | ok hs hh hlog => exact .ok hs hh hlog
  | enum variants hlen =>
    obtain ⟨hd, ht⟩ := derived_enum dec tr hdecl stack heap
    rw [hd, ht]
    rcases Cursor.u8_cases hstack with ⟨hu, hcu⟩ | ⟨tag, hs, hu, hcu⟩
    · simp only [hu, hcu, bind, Except.bind]
      split <;> exact .stop (.error .unexpectedEof)
    · simp only [hu, hcu, bind, Except.bind]
      split
      · rcases Cursor.u32_cases hs.inBounds with ⟨hu, hcu⟩ | ⟨len, hs', hu, hcu⟩
        · simp only [hu, hcu]
          exact .stop (.error .unexpectedEof)
        · simp only [hu, hcu]
          rcases Cursor.declared_cases hheap len with
            ⟨ht, hct⟩ | ⟨payload, hplen, hle, hh, ht, hct⟩
          · simp only [ht, hct]
            exact .stop (.error .unexpectedEof)
          · have hv := traceVariant_follows hdecl tag payload hnested
            simp only [ht, hct]
            generalize decodeVariant dec hdecl tag payload = d at hv ⊢
            generalize traceVariant tr hdecl tag payload = t at hv ⊢
            cases hv with
            | stop s => exact .stop s
            | ok hlog =>
              exact .ok (hs.trans hs') hh (.cons ⟨hle, Nat.le_refl _⟩
                (hlog.mono (by omega)))
      · have hv := traceVariant_follows hdecl tag [] hnested
        generalize decodeVariant dec hdecl tag [] = d at hv ⊢
        generalize traceVariant tr hdecl tag [] = t at hv ⊢
        cases hv with
        | stop s => exact .stop s
        | ok hlog => exact .ok hs (.refl hheap) (hlog.mono (Nat.zero_le _))

theorem trace_follows (fuel : Nat) : NestedFollow (decode (Γ := Γ) fuel) (trace fuel) := by
  induction fuel with
  | zero => exact fun _ _ _ _ _ => .stop .fuel
  | succ fuel ih =>
    intro ty stack heap hstack hheap
    cases ty with
    | scalar s =>
      rw [decode, trace]
      rcases Cursor.array_cases hstack s.size with ⟨ht, hc⟩ | ⟨bytes, hs, ht, hc⟩
      · simp only [ht, hc, bind, Except.bind]
        exact .stop (.error .unexpectedEof)
      · simp only [ht, hc, bind, Except.bind]
        exact .ok hs (.refl hheap) fitted_nil
    | bool =>
      rw [decode, trace]
      rcases Cursor.u8_cases hstack with ⟨ht, hc⟩ | ⟨byte, hs, ht, hc⟩
      · simp only [ht, hc, bind, Except.bind]
        exact .stop (.error .unexpectedEof)
      · simp only [ht, hc, bind, Except.bind]
        split
        · exact .ok hs (.refl hheap) fitted_nil
        · split
          · exact .ok hs (.refl hheap) fitted_nil
          · exact .stop (.error (.invalidBool byte))
    | char =>
      rw [decode, trace]
      rcases Cursor.u32_cases hstack with ⟨ht, hc⟩ | ⟨value, hs, ht, hc⟩
      · simp only [ht, hc, bind, Except.bind]
        exact .stop (.error .unexpectedEof)
      · simp only [ht, hc, bind, Except.bind]
        cases charFromU32 value with
        | none => exact .stop (.error (.invalidChar value))
        | some c => exact .ok hs (.refl hheap) fitted_nil
    | string =>
      rw [decode, trace]
      rcases Cursor.u32_cases hstack with ⟨ht, hc⟩ | ⟨len, hs, ht, hc⟩
      · simp only [ht, hc, bind, Except.bind]
        exact .stop (.error .unexpectedEof)
      · rcases Cursor.declared_cases hheap len with ⟨hh, hch⟩ | ⟨bytes, -, hle, ha, hh, hch⟩
        · simp only [ht, hc, hh, hch, bind, Except.bind]
          exact .stop (.error .unexpectedEof)
        · simp only [ht, hc, hh, hch, bind, Except.bind]
          cases String.fromUTF8? ⟨bytes.toArray⟩ with
          | none => exact .stop (.error .utf8)
          | some str => exact .ok hs ha (.cons ⟨hle, Nat.le_refl _⟩ fitted_nil)
    | vec elem =>
      rw [decode, trace]
      rcases Cursor.u32_cases hstack with ⟨ht, hc⟩ | ⟨len, hs, ht, hc⟩
      · simp only [ht, hc, bind, Except.bind]
        exact .stop (.error .unexpectedEof)
      · rcases Cursor.declared_cases hheap len with
          ⟨hh, hch⟩ | ⟨region, hlen, hle, ha, hh, hch⟩
        · simp only [ht, hc, hh, hch, bind, Except.bind]
          exact .stop (.error .unexpectedEof)
        · have hunits := traceUnits_follows ih elem region region.length 0
          simp only [ht, hc, hh, hch, bind, Except.bind]
          generalize decodeUnits (decode fuel) elem region region.length 0 = d at hunits ⊢
          generalize traceUnits (trace fuel) elem region region.length 0 = t at hunits ⊢
          cases hunits with
          | stop s => exact .stop s
          | ok hlog =>
            exact .ok hs ha (.cons ⟨hle, Nat.le_refl _⟩ (hlog.mono (by omega)))
    | option inner =>
      rw [decode, trace]
      rcases Cursor.u8_cases hstack with ⟨ht, hc⟩ | ⟨flag, hs, ht, hc⟩
      · simp only [ht, hc, bind, Except.bind]
        exact .stop (.error .unexpectedEof)
      · simp only [ht, hc, bind, Except.bind]
        split
        · exact .ok hs (.refl hheap) fitted_nil
        · rcases Cursor.take_cases hheap (Γ.stackSize inner) with
            ⟨hh, hch⟩ | ⟨bytes, -, -, ha, hh, hch⟩
          · simp only [hh, hch]
            exact .stop (.error .unexpectedEof)
          · have hv := ih inner (Cursor.new bytes) (heap.skip (Γ.stackSize inner))
              (Cursor.inBounds_new _) ha.inBounds
            simp only [hh, hch]
            generalize decode fuel inner _ _ = d at hv ⊢
            generalize trace fuel inner _ _ = t at hv ⊢
            cases hv with
            | stop s => exact .stop s
            | ok _ hh' hlog => exact .ok hs (ha.trans hh') (hlog.mono ha.remaining_le)
    | array elem n =>
      have hfields := traceFields_follows ih (List.replicate n elem) hstack hheap
      rw [decode, trace]
      generalize decodeFields (decode fuel) _ stack heap = d at hfields ⊢
      generalize traceFields (trace fuel) _ stack heap = t at hfields ⊢
      cases hfields with
      | stop s => exact .stop s
      | ok hs hh hlog => exact .ok hs hh hlog
    | tuple tys =>
      have hfields := traceFields_follows ih tys hstack hheap
      rw [decode, trace]
      generalize decodeFields (decode fuel) tys stack heap = d at hfields ⊢
      generalize traceFields (trace fuel) tys stack heap = t at hfields ⊢
      cases hfields with
      | stop s => exact .stop s
      | ok hs hh hlog => exact .ok hs hh hlog
    | derived name => exact traceDerived_follows ih name hstack hheap

-- No input makes the decoder leave its buffers, and it answers as `from_wire` does.
theorem traceWire_follows (fuel : Nat) (ty : WireTy) (bytes : List UInt8) :
    FollowsWhole bytes.length (fromWire (Γ := Γ) fuel ty bytes) (traceWire fuel ty bytes) := by
  rw [fromWire, traceWire]
  split
  · exact .stop (.error .unexpectedEof)
  · have hsplit : splitAt bytes (Γ.stackSize ty) =
        .ok (bytes.take (Γ.stackSize ty), bytes.drop (Γ.stackSize ty)) := if_pos (by omega)
    have hv := trace_follows (Γ := Γ) fuel ty (Cursor.new (bytes.take (Γ.stackSize ty)))
      (Cursor.new (bytes.drop (Γ.stackSize ty))) (Cursor.inBounds_new _) (Cursor.inBounds_new _)
    simp only [bind, Except.bind, hsplit]
    generalize decode fuel ty _ _ = d at hv ⊢
    generalize trace fuel ty _ _ = t at hv ⊢
    cases hv with
    | stop s => exact .stop s
    | ok _ _ hlog =>
      refine .ok (hlog.mono ?_)
      simp [Cursor.remaining, Cursor.new]

end Follows

end WaveDb.Wire
