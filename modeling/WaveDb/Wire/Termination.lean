import WaveDb.Wire.Faults

-- Decoding ends on every input: below a `Vec` the heap gets shorter, and everywhere
-- else the types get smaller.
namespace WaveDb.Wire

open WaveDb.Lib

section Inline

variable (P : Nat → Prop)

-- The derived types a value holds in place. A `Vec` keeps its elements elsewhere.
mutual

def WireTy.Inline : WireTy → Prop
  | .scalar _ | .bool | .char | .string | .vec _ => True
  | .option inner => inner.Inline
  | .array elem _ => elem.Inline
  | .tuple tys => AllInline tys
  | .derived name => P name

def AllInline : List WireTy → Prop
  | [] => True
  | ty :: tys => ty.Inline ∧ AllInline tys

end

def Variant.Inline : Variant → Prop
  | .unit => True
  | .fields tys => AllInline P tys

def Decl.Inline : Decl → Prop
  | .struct tys => AllInline P tys
  | .enum variants _ => ∀ variant ∈ variants, variant.Inline P

mutual

theorem WireTy.inline_true : (ty : WireTy) → ty.Inline fun _ => True
  | .scalar _ | .bool | .char | .string | .vec _ => trivial
  | .option inner => inner.inline_true
  | .array elem _ => elem.inline_true
  | .tuple tys => allInline_true tys
  | .derived _ => trivial

theorem allInline_true : (tys : List WireTy) → AllInline (fun _ => True) tys
  | [] => trivial
  | ty :: tys => ⟨ty.inline_true, allInline_true tys⟩

end

end Inline

-- Every derived type has a finite size; no program with another one compiles.
def Env.Founded (Γ : Env) : Prop :=
  ∃ rank : Nat → Nat, ∀ name, (Γ.decl name).Inline fun inner => rank inner < rank name

variable {Γ : Env}

theorem Follows.ahead {α : Type} {stack heap stack' heap' : Cursor} {a : α}
    {t : Except Fault (α × Cursor × Cursor × List Declared)}
    (h : Follows stack heap (.ok (a, stack', heap')) t) :
    stack.Ahead stack' ∧ heap.Ahead heap' := by
  cases h with
  | ok hs hh _ => exact ⟨hs, hh⟩

-- With enough fuel the decoder answers, whatever is on a heap of at most
-- `left` bytes.
def Ends (Γ : Env) (left : Nat) (ty : WireTy) : Prop :=
  ∃ bound, ∀ fuel, bound ≤ fuel → ∀ stack heap : Cursor, stack.InBounds → heap.InBounds →
    heap.remaining ≤ left → decode (Γ := Γ) fuel ty stack heap ≠ .error .fuel

def FieldsEnd (Γ : Env) (left : Nat) (tys : List WireTy) : Prop :=
  ∃ bound, ∀ fuel, bound ≤ fuel → ∀ stack heap : Cursor, stack.InBounds → heap.InBounds →
    heap.remaining ≤ left → decodeFields (decode (Γ := Γ) fuel) tys stack heap ≠ .error .fuel

theorem bind_ne_fuel {α β : Type} {x : Except Stop α} {f : α → Except Stop β}
    (hx : x ≠ .error .fuel) (hf : ∀ a, x = .ok a → f a ≠ .error .fuel) :
    (x >>= f) ≠ .error .fuel := by
  cases x with
  | error s =>
    intro h
    cases Except.error.inj h
    exact hx rfl
  | ok a => exact hf a rfl

theorem take_ne_fuel {c : Cursor} (h : c.InBounds) (n : Nat) : c.take n ≠ .error .fuel := by
  rcases Cursor.take_cases h n with ⟨ht, -⟩ | ⟨bytes, -, -, -, ht, -⟩ <;> simp [ht]

theorem u8_ne_fuel {c : Cursor} (h : c.InBounds) : c.u8 ≠ .error .fuel := by
  rcases Cursor.u8_cases h with ⟨ht, -⟩ | ⟨byte, -, ht, -⟩ <;> simp [ht]

theorem u32_ne_fuel {c : Cursor} (h : c.InBounds) : c.u32 ≠ .error .fuel := by
  rcases Cursor.u32_cases h with ⟨ht, -⟩ | ⟨value, -, ht, -⟩ <;> simp [ht]

theorem take_ok {c c' : Cursor} {n : Nat} {bytes : List UInt8} (h : c.InBounds)
    (ht : c.take n = .ok (bytes, c')) : bytes.length ≤ c.remaining ∧ c.Ahead c' := by
  rcases Cursor.take_cases h n with ⟨ht', -⟩ | ⟨bytes', hlen, hle, ha, ht', -⟩
  · cases ht.symm.trans ht'
  · obtain ⟨rfl, rfl⟩ := Prod.mk.inj (Except.ok.inj (ht.symm.trans ht'))
    exact ⟨hlen ▸ hle, ha⟩

theorem u8_ok {c c' : Cursor} {byte : UInt8} (h : c.InBounds) (hu : c.u8 = .ok (byte, c')) :
    c'.InBounds := by
  rcases Cursor.u8_cases h with ⟨hu', -⟩ | ⟨_, ha, hu', -⟩
  · cases hu.symm.trans hu'
  · obtain ⟨-, rfl⟩ := Prod.mk.inj (Except.ok.inj (hu.symm.trans hu'))
    exact ha.inBounds

theorem fieldsEnd {left : Nat} {tys : List WireTy} (h : ∀ ty ∈ tys, Ends Γ left ty) :
    FieldsEnd Γ left tys := by
  induction tys with
  | nil => exact ⟨0, fun _ _ _ _ _ _ _ h => by cases h⟩
  | cons ty tys ih =>
    obtain ⟨m, hty⟩ := h ty List.mem_cons_self
    obtain ⟨n, htys⟩ := ih fun ty' hty' => h ty' (List.mem_cons_of_mem _ hty')
    refine ⟨max m n, fun fuel hfuel stack heap hstack hheap hleft => ?_⟩
    refine bind_ne_fuel (hty fuel (by omega) stack heap hstack hheap hleft) ?_
    rintro ⟨v, stack', heap'⟩ hv
    have hfollows := trace_follows (Γ := Γ) fuel ty stack heap hstack hheap
    rw [hv] at hfollows
    obtain ⟨hs, hh⟩ := hfollows.ahead
    refine bind_ne_fuel (htys fuel (by omega) stack' heap' hs.inBounds hh.inBounds
      (hh.remaining_le.trans hleft)) fun _ _ h => by cases h

-- The loop of `Vec`: a unit takes at least one byte, so as many rounds as the
-- region has bytes are enough.
theorem decodeUnits_ne_fuel {fuel : Nat} {elem : WireTy} {region : List UInt8}
    (hpos : 0 < Γ.stackSize elem)
    (helem : ∀ stack heap : Cursor, stack.InBounds → heap.InBounds →
      heap.remaining < region.length → decode (Γ := Γ) fuel elem stack heap ≠ .error .fuel)
    (rounds cur : Nat) (hrounds : region.length ≤ cur + rounds) :
    decodeUnits (decode (Γ := Γ) fuel) elem region rounds cur ≠ .error .fuel := by
  induction rounds generalizing cur with
  | zero =>
    rw [decodeUnits, if_neg (by omega)]
    rintro ⟨⟩
  | succ rounds ih =>
    rw [decodeUnits]
    split
    · split
      · rintro ⟨⟩
      · refine bind_ne_fuel (helem _ _ (Cursor.inBounds_new _) (Cursor.inBounds_new _) ?_) ?_
        · simp only [Cursor.remaining, Cursor.new, List.length_drop]
          omega
        · rintro ⟨v, es, eh⟩ -
          exact bind_ne_fuel (ih _ (by omega)) fun _ _ h => by cases h
    · rintro ⟨⟩

theorem ends_vec {left : Nat} {elem : WireTy} (hpos : 0 < Γ.stackSize elem)
    (helem : ∀ left' < left, Ends Γ left' elem) : Ends Γ left (.vec elem) := by
  obtain ⟨bound, hbound⟩ : ∃ bound, ∀ fuel, bound ≤ fuel → ∀ stack heap : Cursor,
      stack.InBounds → heap.InBounds → heap.remaining < left →
      decode (Γ := Γ) fuel elem stack heap ≠ .error .fuel := by
    cases left with
    | zero => exact ⟨0, fun _ _ _ _ _ _ h => absurd h (Nat.not_lt_zero _)⟩
    | succ left =>
      obtain ⟨bound, h⟩ := helem left (Nat.lt_succ_self left)
      exact ⟨bound, fun fuel hfuel stack heap hs hh hlt =>
        h fuel hfuel stack heap hs hh (Nat.le_of_lt_succ hlt)⟩
  refine ⟨bound + 1, fun fuel hfuel stack heap hstack hheap hleft => ?_⟩
  obtain ⟨fuel, rfl⟩ : ∃ n, fuel = n + 1 := ⟨fuel - 1, by omega⟩
  rw [decode]
  refine bind_ne_fuel (u32_ne_fuel hstack) ?_
  rintro ⟨len, stack'⟩ _
  refine bind_ne_fuel (take_ne_fuel hheap len) ?_
  rintro ⟨region, heap'⟩ htake
  obtain ⟨hlen, -⟩ := take_ok hheap htake
  refine bind_ne_fuel (decodeUnits_ne_fuel hpos ?_ region.length 0 (by omega)) fun _ _ h => by cases h
  exact fun s h hs hh hlt => hbound fuel (by omega) s h hs hh (by omega)

theorem ends_option {left : Nat} {inner : WireTy} (h : Ends Γ left inner) :
    Ends Γ left (.option inner) := by
  obtain ⟨bound, h⟩ := h
  refine ⟨bound + 1, fun fuel hfuel stack heap hstack hheap hleft => ?_⟩
  obtain ⟨fuel, rfl⟩ : ∃ n, fuel = n + 1 := ⟨fuel - 1, by omega⟩
  rw [decode]
  refine bind_ne_fuel (u8_ne_fuel hstack) ?_
  rintro ⟨flag, stack'⟩ _
  simp only
  split
  · rintro ⟨⟩
  · refine bind_ne_fuel (take_ne_fuel hheap _) ?_
    rintro ⟨bytes, heap'⟩ htake
    obtain ⟨-, ha⟩ := take_ok hheap htake
    exact bind_ne_fuel (h fuel (by omega) _ heap' (Cursor.inBounds_new _) ha.inBounds
      (ha.remaining_le.trans hleft)) fun _ _ h => by cases h

theorem ends_array {left n : Nat} {elem : WireTy} (h : Ends Γ left elem) :
    Ends Γ left (.array elem n) := by
  obtain ⟨bound, h⟩ : FieldsEnd Γ left (List.replicate n elem) :=
    fieldsEnd fun ty hty => List.eq_of_mem_replicate hty ▸ h
  refine ⟨bound + 1, fun fuel hfuel stack heap hstack hheap hleft => ?_⟩
  obtain ⟨fuel, rfl⟩ : ∃ n, fuel = n + 1 := ⟨fuel - 1, by omega⟩
  rw [decode]
  exact bind_ne_fuel (h fuel (by omega) stack heap hstack hheap hleft) fun _ _ h => by cases h

theorem ends_tuple {left : Nat} {tys : List WireTy} (h : FieldsEnd Γ left tys) :
    Ends Γ left (.tuple tys) := by
  obtain ⟨bound, h⟩ := h
  refine ⟨bound + 1, fun fuel hfuel stack heap hstack hheap hleft => ?_⟩
  obtain ⟨fuel, rfl⟩ : ∃ n, fuel = n + 1 := ⟨fuel - 1, by omega⟩
  rw [decode]
  exact bind_ne_fuel (h fuel (by omega) stack heap hstack hheap hleft) fun _ _ h => by cases h

theorem ends_struct {left name : Nat} {tys : List WireTy} (hdecl : Γ.decl name = .struct tys)
    (h : FieldsEnd Γ left tys) : Ends Γ left (.derived name) := by
  obtain ⟨bound, h⟩ := h
  refine ⟨bound + 1, fun fuel hfuel stack heap hstack hheap hleft => ?_⟩
  obtain ⟨fuel, rfl⟩ : ∃ n, fuel = n + 1 := ⟨fuel - 1, by omega⟩
  rw [decode, decodeDerived_struct hdecl]
  exact bind_ne_fuel (h fuel (by omega) stack heap hstack hheap hleft) fun _ _ h => by cases h

theorem exists_variant_bound {left : Nat} {variants : List Variant}
    (h : ∀ tys, .fields tys ∈ variants → FieldsEnd Γ left tys) :
    ∃ bound, ∀ tys, Variant.fields tys ∈ variants → ∀ fuel, bound ≤ fuel →
      ∀ stack heap : Cursor, stack.InBounds → heap.InBounds → heap.remaining ≤ left →
      decodeFields (decode (Γ := Γ) fuel) tys stack heap ≠ .error .fuel := by
  induction variants with
  | nil => exact ⟨0, nofun⟩
  | cons variant variants ih =>
    obtain ⟨m, hm⟩ := ih fun tys htys => h tys (List.mem_cons_of_mem _ htys)
    cases variant with
    | unit =>
      refine ⟨m, fun tys htys => hm tys ?_⟩
      rcases List.mem_cons.mp htys with heq | htys
      · cases heq
      · exact htys
    | fields tys =>
      obtain ⟨n, hn⟩ := h tys List.mem_cons_self
      refine ⟨max m n, fun tys' htys' fuel hfuel => ?_⟩
      rcases List.mem_cons.mp htys' with heq | htys'
      · cases heq
        exact hn fuel (by omega)
      · exact hm tys' htys' fuel (by omega)

theorem ends_enum {left name : Nat} {variants : List Variant} {hlen : variants.length ≤ 256}
    (hdecl : Γ.decl name = .enum variants hlen)
    (h : ∀ tys, .fields tys ∈ variants → FieldsEnd Γ left tys) : Ends Γ left (.derived name) := by
  obtain ⟨bound, hbound⟩ := exists_variant_bound h
  refine ⟨bound + 1, fun fuel hfuel stack heap hstack hheap hleft => ?_⟩
  obtain ⟨fuel, rfl⟩ : ∃ n, fuel = n + 1 := ⟨fuel - 1, by omega⟩
  have hvariant : ∀ (tag : UInt8) (payload : List UInt8), payload.length ≤ left →
      decodeVariant (decode (Γ := Γ) fuel) hdecl tag payload ≠ .error .fuel := by
    intro tag payload hpayload
    cases htag : variants[tag.toNat]? with
    | none =>
      rw [(variant_none (decode fuel) (trace fuel) hdecl payload htag).1]
      rintro ⟨⟩
    | some variant =>
      cases variant with
      | unit =>
        rw [(variant_unit (decode fuel) (trace fuel) hdecl payload htag).1]
        rintro ⟨⟩
      | fields tys =>
        rw [(variant_fields (decode fuel) (trace fuel) hdecl payload htag).1]
        split
        · rintro ⟨⟩
        · refine bind_ne_fuel (hbound tys (List.mem_of_getElem? htag) fuel (by omega) _ _
            (Cursor.inBounds_new _) (Cursor.inBounds_new _) ?_) fun _ _ h => by cases h
          simp only [Cursor.remaining, Cursor.new, List.length_drop]
          omega
  rw [decode, (derived_enum (decode fuel) (trace fuel) hdecl stack heap).1]
  split
  · refine bind_ne_fuel (u8_ne_fuel hstack) ?_
    rintro ⟨tag, stack'⟩ hu
    refine bind_ne_fuel (u32_ne_fuel (u8_ok hstack hu)) ?_
    rintro ⟨len, stack''⟩ _
    refine bind_ne_fuel (take_ne_fuel hheap len) ?_
    rintro ⟨payload, heap'⟩ htake
    obtain ⟨hplen, -⟩ := take_ok hheap htake
    exact bind_ne_fuel (hvariant tag payload (hplen.trans hleft)) fun _ _ h => by cases h
  · refine bind_ne_fuel (u8_ne_fuel hstack) ?_
    rintro ⟨tag, stack'⟩ _
    exact bind_ne_fuel (hvariant tag [] (Nat.zero_le _)) fun _ _ h => by cases h

section Leaves

variable {left : Nat}

theorem ends_scalar (s : Scalar) : Ends Γ left (.scalar s) := by
  refine ⟨1, fun fuel hfuel stack heap hstack hheap _ => ?_⟩
  obtain ⟨fuel, rfl⟩ : ∃ n, fuel = n + 1 := ⟨fuel - 1, by omega⟩
  exact bind_ne_fuel (take_ne_fuel hstack _) fun _ _ h => by cases h

theorem ends_bool : Ends Γ left .bool := by
  refine ⟨1, fun fuel hfuel stack heap hstack hheap _ => ?_⟩
  obtain ⟨fuel, rfl⟩ : ∃ n, fuel = n + 1 := ⟨fuel - 1, by omega⟩
  refine bind_ne_fuel (u8_ne_fuel hstack) ?_
  rintro ⟨byte, _⟩ _
  simp only
  split
  · rintro ⟨⟩
  · split <;> rintro ⟨⟩

theorem ends_char : Ends Γ left .char := by
  refine ⟨1, fun fuel hfuel stack heap hstack hheap _ => ?_⟩
  obtain ⟨fuel, rfl⟩ : ∃ n, fuel = n + 1 := ⟨fuel - 1, by omega⟩
  refine bind_ne_fuel (u32_ne_fuel hstack) ?_
  rintro ⟨value, _⟩ _
  simp only
  split <;> rintro ⟨⟩

theorem ends_string : Ends Γ left .string := by
  refine ⟨1, fun fuel hfuel stack heap hstack hheap _ => ?_⟩
  obtain ⟨fuel, rfl⟩ : ∃ n, fuel = n + 1 := ⟨fuel - 1, by omega⟩
  refine bind_ne_fuel (u32_ne_fuel hstack) ?_
  rintro ⟨len, _⟩ _
  refine bind_ne_fuel (take_ne_fuel hheap _) ?_
  rintro ⟨bytes, _⟩ _
  simp only
  split <;> rintro ⟨⟩

end Leaves

section Parts

variable {left : Nat} {P : Nat → Prop}
  (hvec : ∀ elem : WireTy, 0 < Γ.stackSize elem → elem.UnitsSized Γ → Ends Γ left (.vec elem))
  (hname : ∀ name, P name → Ends Γ left (.derived name))

include hvec hname

-- A type ends once the `Vec`s and the derived types in it do.
mutual

theorem WireTy.ends_of_parts : (ty : WireTy) → ty.UnitsSized Γ → ty.Inline P → Ends Γ left ty
  | .scalar s, _, _ => ends_scalar s
  | .bool, _, _ => ends_bool
  | .char, _, _ => ends_char
  | .string, _, _ => ends_string
  | .vec elem, hsized, _ => hvec elem hsized.1 hsized.2
  | .option inner, hsized, hin => ends_option (inner.ends_of_parts hsized hin)
  | .array elem _, hsized, hin => ends_array (elem.ends_of_parts hsized hin)
  | .tuple tys, hsized, hin => ends_tuple (fieldsEnd (all_ends_of_parts tys hsized hin))
  | .derived name, _, hin => hname name hin

theorem all_ends_of_parts : (tys : List WireTy) → AllUnitsSized Γ tys → AllInline P tys →
    ∀ ty ∈ tys, Ends Γ left ty
  | [], _, _ => nofun
  | ty :: tys, hsized, hin =>
    List.forall_mem_cons.mpr ⟨ty.ends_of_parts hsized.1 hin.1,
      all_ends_of_parts tys hsized.2 hin.2⟩

end

omit hname in
theorem ends_derived (hsized : Γ.UnitsSized) {rank : Nat → Nat}
    (hrank : ∀ name, (Γ.decl name).Inline fun inner => rank inner < rank name) (name : Nat) :
    Ends Γ left (.derived name) := by
  induction hn : rank name using Nat.strongRecOn generalizing name with
  | ind n ih =>
    have hnames : ∀ inner, rank inner < rank name → Ends Γ left (.derived inner) :=
      fun inner hlt => ih (rank inner) (hn ▸ hlt) inner rfl
    have hdsized := hsized name
    have hdin := hrank name
    cases hdecl : Γ.decl name with
    | struct tys =>
      rw [hdecl] at hdsized hdin
      exact ends_struct hdecl (fieldsEnd (all_ends_of_parts hvec hnames tys hdsized hdin))
    | enum variants hlen =>
      rw [hdecl] at hdsized hdin
      exact ends_enum hdecl fun tys htys =>
        fieldsEnd (all_ends_of_parts hvec hnames tys (hdsized _ htys) (hdin _ htys))

end Parts

-- The outer induction is on the heap, for the elements of a `Vec`. With the
-- heap fixed the types get smaller.
theorem ends (hsized : Γ.UnitsSized) (hfounded : Γ.Founded) (left : Nat) (ty : WireTy)
    (hty : ty.UnitsSized Γ) : Ends Γ left ty := by
  obtain ⟨rank, hrank⟩ := hfounded
  induction left using Nat.strongRecOn generalizing ty with
  | ind left ih =>
    have hvec : ∀ elem : WireTy, 0 < Γ.stackSize elem → elem.UnitsSized Γ →
        Ends Γ left (.vec elem) :=
      fun elem hpos helem => ends_vec hpos fun left' hlt => ih left' hlt elem helem
    exact ty.ends_of_parts hvec
      (fun name _ => ends_derived hvec hsized hrank name) hty ty.inline_true

theorem sampleEnv_founded : sampleEnv.Founded := by
  refine ⟨fun name => name, ?_⟩
  rintro (_ | _ | name)
  · exact ⟨trivial, trivial, trivial⟩
  · intro variant hv
    simp only [List.mem_cons, List.not_mem_nil, or_false] at hv
    obtain rfl | rfl := hv
    · trivial
    · exact ⟨trivial, Nat.zero_lt_one, trivial⟩
  · trivial

end WaveDb.Wire
