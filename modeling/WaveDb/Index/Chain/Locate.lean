import WaveDb.Index.Chain.Filing

namespace WaveDb.Index

open WaveDb.Lib WaveDb.Core

section Shape

variable {K P : Type}

def entriesOf (segs : Segs K P) : List (K × P) := segs.flatMap Prod.snd

theorem entriesOf_append (a b : Segs K P) : entriesOf (a ++ b) = entriesOf a ++ entriesOf b :=
  List.flatMap_append

theorem entriesOf_cons (s : LocalId × List (K × P)) (b : Segs K P) :
    entriesOf (s :: b) = s.2 ++ entriesOf b := List.flatMap_cons

theorem mem_entriesOf_of_slot {segs : Segs K P} {slot : Slot K} (h : slot ∈ slotsOf segs) :
    ∃ e ∈ entriesOf segs, e.1 = slot.first := by
  obtain ⟨s, hs, hslot⟩ := List.mem_filterMap.mp h
  obtain ⟨e, he, rfl⟩ := Option.map_eq_some_iff.mp hslot
  exact ⟨e, List.mem_flatMap.mpr ⟨s, hs, List.mem_of_mem_head? he⟩, rfl⟩

theorem sum_slotsOf (segs : Segs K P) :
    ((slotsOf segs).map Slot.count).sum = (entriesOf segs).length := by
  induction segs with
  | nil => rfl
  | cons s segs ih =>
    rw [slotsOf_cons, entriesOf_cons, List.map_append, List.sum_append, List.length_append, ih]
    congr 1
    cases h : s.2 <;> simp [slotOf, h]

variable [LinearOrder K]

structure ChainShape (c : Chain) (segs : Segs K P) : Prop where
  head : firstId segs none = some c.head
  tail : lastId none segs = some c.tail
  sorted : Ascending Prod.fst (entriesOf segs)
  lower : 1 < segs.length → ∀ s ∈ segs, c.min / 2 < s.2.length
  upper : ∀ s ∈ segs, s.2.length < c.min * 2

theorem slotsOf_ascending {segs : Segs K P} (h : Ascending Prod.fst (entriesOf segs)) :
    Ascending Slot.first (slotsOf segs) := by
  induction segs with
  | nil => exact List.Pairwise.nil
  | cons s segs ih =>
    rw [entriesOf_cons] at h
    obtain ⟨-, hrest, hcross⟩ := h.append
    rw [slotsOf_cons]
    refine List.pairwise_append.mpr ⟨?_, ih hrest, fun x hx y hy => ?_⟩
    · cases slotOf s <;> simp
    · obtain ⟨e, he, rfl⟩ := Option.map_eq_some_iff.mp (Option.mem_toList.mp hx)
      obtain ⟨e', he', heq⟩ := mem_entriesOf_of_slot hy
      rw [← heq]
      exact hcross e (List.mem_of_mem_head? he) e' he'

theorem head_le {entries : List (K × P)} {e x : K × P} (h : Ascending Prod.fst entries)
    (he : entries.head? = some e) (hx : x ∈ entries) : e.1 ≤ x.1 := by
  cases entries with
  | nil => cases he
  | cons y rest =>
    cases he
    rcases List.mem_cons.mp hx with rfl | hx
    · exact le_rfl
    · exact ((List.pairwise_cons.mp h).1 x hx).le

theorem exists_cover (key : K) (segs : Segs K P) (hne : segs ≠ [])
    (hs : Ascending Prod.fst (entriesOf segs))
    (hfull : 1 < segs.length → ∀ s ∈ segs, s.2 ≠ []) :
    ∃ a s b, segs = a ++ s :: b ∧ (∀ e ∈ entriesOf a, e.1 < key) ∧
      (∀ e ∈ entriesOf b, key < e.1) ∧
      ((∃ slot, slotOf s = some slot ∧ slot.first ≤ key ∧
        covering (slotsOf segs) key = some slot) ∨
        (a = [] ∧ covering (slotsOf segs) key = none ∧ ∀ e ∈ s.2, key < e.1)) := by
  induction segs with
  | nil => exact absurd rfl hne
  | cons s rest ih =>
    rw [entriesOf_cons] at hs
    obtain ⟨hss, hsr, hcross⟩ := hs.append
    have hsub : 1 < rest.length → ∀ x ∈ rest, x.2 ≠ [] := fun hlen x hx =>
      hfull (by rw [List.length_cons]; omega) x (List.mem_cons_of_mem _ hx)
    cases hslot : slotOf s with
    | none =>
      -- Only a lone segment is empty.
      have hnil : s.2 = [] := by simpa [slotOf] using hslot
      have hrest : rest = [] := by
        by_contra hr
        have hlen := List.length_pos_of_ne_nil hr
        exact hfull (by rw [List.length_cons]; omega) s List.mem_cons_self hnil
      subst hrest
      exact ⟨[], s, [], rfl, by simp [entriesOf], by simp [entriesOf],
        .inr ⟨rfl, by simp [slotsOf, hslot, covering], by simp [hnil]⟩⟩
    | some slot =>
      obtain ⟨e, he, hfirst⟩ := Option.map_eq_some_iff.mp hslot
      have hcons : slotsOf (s :: rest) = [slot] ++ slotsOf rest := by
        rw [slotsOf_cons, hslot]
        rfl
      have hke : slot.first = e.1 := by rw [← hfirst]
      have hes := List.mem_of_mem_head? he
      rcases lt_or_ge key slot.first with hgt | hle
      · -- Below every separator.
        refine ⟨[], s, rest, rfl, by simp [entriesOf], fun x hx => ?_,
          .inr ⟨rfl, covering_eq_none fun x hx => ?_, fun x hx => ?_⟩⟩
        · exact hgt.trans (hke ▸ hcross e hes x hx)
        · rw [hcons] at hx
          rcases List.mem_append.mp hx with hx | hx
          · rwa [List.mem_singleton.mp hx]
          · obtain ⟨y, hy, hyx⟩ := mem_entriesOf_of_slot hx
            rw [← hyx]
            exact hgt.trans (hke ▸ hcross e hes y hy)
        · exact (hke ▸ hgt).trans_le (head_le hss he hx)
      · cases rest with
        | nil =>
          refine ⟨[], s, [], rfl, by simp [entriesOf], by simp [entriesOf],
            .inl ⟨slot, hslot, hle, ?_⟩⟩
          rw [hcons]
          simp [slotsOf, covering, hle]
        | cons s' rest =>
          obtain ⟨a, x, b, heq, ha, hb, hcase⟩ := ih (by simp) hsr hsub
          rcases hcase with ⟨slot', hx, hle', hcov⟩ | ⟨rfl, hcov, hx⟩
          · refine ⟨s :: a, x, b, by rw [heq]; rfl, fun y hy => ?_, hb,
              .inl ⟨slot', hx, hle', ?_⟩⟩
            · rw [entriesOf_cons, List.mem_append] at hy
              rcases hy with hy | hy
              · obtain ⟨e', he', hf'⟩ := Option.map_eq_some_iff.mp hx
                refine (hcross y hy e' ?_).trans_le (by rw [← hf'] at hle'; exact hle')
                rw [heq, entriesOf_append, entriesOf_cons]
                simp [List.mem_of_mem_head? he']
              · exact ha y hy
            · rw [hcons, ← hcov]
              refine covering_append_right (by simpa using hle) ⟨slot', ?_, hle'⟩
                (slotsOf_ascending hsr)
              exact (List.takeWhile_sublist _).subset (List.mem_of_mem_getLast? hcov)
          · rw [List.nil_append] at heq
            have hgt : ∀ y ∈ entriesOf (s' :: rest), key < y.1 := by
              intro y hy
              rw [heq, entriesOf_cons, List.mem_append] at hy
              exact hy.elim (hx y) (hb y)
            refine ⟨[], s, s' :: rest, rfl, by simp [entriesOf], hgt,
              .inl ⟨slot, hslot, hle, ?_⟩⟩
            rw [hcons, covering_append_left]
            · simp [covering, hle]
            · intro y hy
              obtain ⟨z, hz, hzy⟩ := mem_entriesOf_of_slot hy
              exact hzy ▸ hgt z hz

theorem ChainShape.ne_nil {c : Chain} {segs : Segs K P} (h : ChainShape c segs) : segs ≠ [] := by
  rintro rfl
  cases h.head

theorem ChainShape.full {c : Chain} {segs : Segs K P} (h : ChainShape c segs)
    (hlen : 1 < segs.length) : ∀ s ∈ segs, s.2 ≠ [] := by
  intro s hs hnil
  have hlower := h.lower hlen s hs
  rw [hnil] at hlower
  exact Nat.not_lt_zero _ hlower

end Shape

section Locate

variable {V K P : Type} [LaneCodec V (Segment K P)] [LinearOrder K] {c : Chain}

theorem asks_walkBackTo (c : Chain) (key : K) (fuel : Nat) (id : LocalId) :
    (c.walkBackTo key fuel id : Engine V (LocalId × Segment K P)).Asks (Op.ReadsIn c.tenant) := by
  induction fuel generalizing id with
  | zero => trivial
  | succ fuel ih =>
    refine Prog.Asks.bind (asks_chain_load c id) fun seg => ?_
    cases seg.prev with
    | none => trivial
    | some prev =>
      simp only
      split
      · exact ih prev
      · trivial

variable [LaneCodec V (SparseNode K)]

theorem asks_locate (hok : ∀ t ∈ c.index, t.tenant = c.tenant) (fuel : Nat) (key : K) :
    (c.locate fuel key : Engine V (LocalId × Segment K P)).Asks (Op.ReadsIn c.tenant) := by
  rw [Chain.locate]
  cases hindex : c.index with
  | none => exact asks_walkBackTo c key fuel c.tail
  | some t =>
    refine Prog.Asks.bind ?_ fun slot => Prog.Asks.bind (asks_chain_load c _) fun seg => trivial
    rw [← hok t hindex]
    exact t.asks_findFrom key fuel t.root

variable [DecidableEq V] {w : World V} {segs : Segs K P} {ix : List (Id × V)}

omit [LaneCodec V (SparseNode K)] [LinearOrder K] in
theorem load_segment {a b : Segs K P} {s : LocalId × List (K × P)}
    (h : Holds w.store (segCells V c.tenant c.laneHash none (a ++ s :: b) none)) :
    (c.load s.1 : Engine V (Segment K P)).runIn w =
      (.ok ⟨lastId none a, firstId b none, s.2⟩, w) :=
  chain_load_eq (h _ ((segCells_focus _ _ none none a b s).mem_iff.mpr List.mem_cons_self))

omit [LaneCodec V (SparseNode K)] in
theorem walkBackTo_eq (key : K) (a b : Segs K P) (s : LocalId × List (K × P))
    (hs : Ascending Prod.fst (entriesOf (a ++ s :: b)))
    (hfull : 1 < (a ++ s :: b).length → ∀ x ∈ a ++ s :: b, x.2 ≠ [])
    (hb : ∀ e ∈ entriesOf b, key < e.1)
    (hheld : Holds w.store (segCells V c.tenant c.laneHash none (a ++ s :: b) none)) :
    ∃ a' s' b', a ++ s :: b = a' ++ s' :: b' ∧ (∀ e ∈ entriesOf a', e.1 < key) ∧
      (∀ e ∈ entriesOf b', key < e.1) ∧ ∀ fuel, a.length < fuel →
        (c.walkBackTo key fuel s.1).runIn w =
          (.ok (s'.1, ⟨lastId none a', firstId b' none, s'.2⟩), w) := by
  have hload := load_segment hheld
  induction hn : a.length generalizing a s b with
  | zero =>
    obtain rfl := List.eq_nil_of_length_eq_zero hn
    refine ⟨[], s, b, rfl, by simp [entriesOf], hb, fun fuel hfuel => ?_⟩
    obtain ⟨fuel, rfl⟩ := Nat.exists_eq_succ_of_ne_zero (Nat.ne_of_gt hfuel)
    rw [Chain.walkBackTo, Engine.runIn_bind_ok hload]
    rfl
  | succ n ih =>
    obtain ⟨a, p, rfl⟩ := (List.eq_nil_or_concat a).resolve_left (by rintro rfl; cases hn)
    rw [List.concat_eq_append] at *
    have hprev : lastId none (a ++ [p]) = some p.1 := by rw [lastId_append]; rfl
    have hassoc : a ++ [p] ++ s :: b = a ++ p :: s :: b := by simp
    obtain ⟨e, rest, hcons⟩ := List.exists_cons_of_ne_nil
      (hfull (by simp; omega) s (by simp))
    have hsplit := hs
    rw [entriesOf_append, entriesOf_cons] at hsplit
    obtain ⟨-, hsb, hcross⟩ := hsplit.append
    have hes : e ∈ s.2 := by rw [hcons]; exact List.mem_cons_self
    by_cases hgt : key < e.1
    · have hlt : ∀ x ∈ entriesOf (s :: b), key < x.1 := by
        intro x hx
        rw [entriesOf_cons, List.mem_append] at hx
        exact hx.elim (fun hx => hgt.trans_le (head_le hsb.append.1 (by rw [hcons]; rfl) hx)) (hb x)
      rw [hassoc] at hs hfull hheld ⊢
      obtain ⟨a', s', b', heq, ha', hb', hrun⟩ := ih a (s :: b) p hs hfull hlt hheld
        (load_segment hheld) (by simpa using hn)
      refine ⟨a', s', b', heq, ha', hb', fun fuel hfuel => ?_⟩
      obtain ⟨fuel, rfl⟩ := Nat.exists_eq_succ_of_ne_zero (Nat.ne_of_gt (Nat.zero_lt_of_lt hfuel))
      rw [Chain.walkBackTo, Engine.runIn_bind_ok hload, hprev]
      simp only [Segment.firstKey, hcons, List.head?_cons, Option.map_some, Option.any_some,
        hgt, decide_true, if_true]
      exact hrun fuel (by omega)
    · refine ⟨a ++ [p], s, b, rfl, fun x hx => ?_, hb, fun fuel hfuel => ?_⟩
      · exact (hcross x hx e (by simp [hes])).trans_le (not_lt.mp hgt)
      · obtain ⟨fuel, rfl⟩ := Nat.exists_eq_succ_of_ne_zero (Nat.ne_of_gt (Nat.zero_lt_of_lt hfuel))
        rw [Chain.walkBackTo, Engine.runIn_bind_ok hload, hprev]
        simp only [Segment.firstKey, hcons, List.head?_cons, Option.map_some, Option.any_some,
          hgt, decide_false]
        rfl

theorem locate_spec (h : ChainShape c segs) (hix : Indexed c.index (slotsOf segs) ix)
    (hheld : Holds w.store (segCells V c.tenant c.laneHash none segs none))
    (hixheld : Holds w.store ix) (key : K) :
    ∃ a s b, segs = a ++ s :: b ∧ (∀ e ∈ entriesOf a, e.1 < key) ∧
      (∀ e ∈ entriesOf b, key < e.1) ∧
      Engine.Returns (fun fuel => c.locate fuel key) w
        (s.1, (⟨lastId none a, firstId b none, s.2⟩ : Segment K P)) w := by
  cases hindex : c.index with
  | none =>
    obtain ⟨a, s, rfl⟩ := (List.eq_nil_or_concat segs).resolve_left h.ne_nil
    have htail := h.tail
    have hsorted := h.sorted
    have hfull := h.full
    rw [List.concat_eq_append] at *
    rw [lastId_append] at htail
    obtain ⟨a', s', b', heq, ha', hb', hrun⟩ := walkBackTo_eq key a [] s hsorted hfull
      (by simp [entriesOf]) hheld
    refine ⟨a', s', b', heq, ha', hb', a.length, fun fuel hfuel => ?_⟩
    simp only [Chain.locate, hindex, ← Option.some.inj htail]
    exact hrun fuel hfuel
  | some t =>
    rw [hindex] at hix
    obtain ⟨n, T, hid, hflat, hroot, rfl⟩ := hix
    obtain ⟨a, s, b, rfl, ha, hb, hcase⟩ := exists_cover key segs h.ne_nil h.sorted h.full
    have hfind := find_spec hid hroot (hflat ▸ slotsOf_ascending h.sorted) hixheld key
    rw [hflat] at hfind
    refine ⟨a, s, b, rfl, ha, hb, ?_⟩
    simp only [Chain.locate, hindex]
    refine hfind.bind (.of_run ?_)
    have hload := load_segment hheld
    rcases hcase with ⟨slot, hslot, -, hcov⟩ | ⟨rfl, hcov, -⟩
    · obtain ⟨e, -, rfl⟩ := Option.map_eq_some_iff.mp hslot
      simp only [hcov]
      rw [Engine.runIn_bind_ok hload]
      rfl
    · have hhead : s.1 = c.head := Option.some.inj h.head
      simp only [hcov]
      rw [← hhead, Engine.runIn_bind_ok hload]
      rfl

end Locate

end WaveDb.Index
