import WaveDb.Index.Chain.Insert

namespace WaveDb.Index

open WaveDb.Lib WaveDb.Core

section Pairs

variable {K P : Type} [LinearOrder K] {a b : Segs K P} {l r : LocalId × List (K × P)}
  {le re : List (K × P)}

structure Starved (min : Nat) (a : Segs K P) (l r : LocalId × List (K × P)) (b : Segs K P)
    (le re : List (K × P)) : Prop where
  sorted : Ascending Prod.fst (entriesOf (a ++ (l.1, le) :: (r.1, re) :: b))
  apart : ∀ x ∈ le, ∀ y ∈ r.2, x.1 < y.1
  left : le.length < min * 2
  right : re.length < min * 2
  lower : min / 2 < le.length + re.length
  upper : le.length + re.length < min * 2 + min / 2

theorem neighbours_apart (h : Ascending Prod.fst (entriesOf (a ++ l :: r :: b))) :
    ∀ x ∈ l.2, ∀ y ∈ r.2, x.1 < y.1 := by
  intro x hx y hy
  rw [entriesOf_append, entriesOf_cons, entriesOf_cons] at h
  exact h.append.2.1.append.2.2 x hx y (List.mem_append_left _ hy)

def leftSide (a : Segs K P) (l r : LocalId × List (K × P)) (le : List (K × P)) : Side K P :=
  ⟨l.1, ⟨lastId none a, some r.1, le⟩, l.2.head?.map Prod.fst⟩

def rightSide (l r : LocalId × List (K × P)) (b : Segs K P) (re : List (K × P)) : Side K P :=
  ⟨r.1, ⟨some l.1, firstId b none, re⟩, r.2.head?.map Prod.fst⟩

theorem Starved.between {min : Nat} (h : Starved min a l r b le re) :
    ∀ k ∈ le.head?.map Prod.fst, Between (slotsOf a) (slotsOf (r :: b)) k := by
  rintro k hk
  have hbetween := between_first h.sorted k hk
  obtain ⟨e, he, rfl⟩ := Option.map_eq_some_iff.mp hk
  refine ⟨hbetween.left, fun slot hslot => ?_⟩
  rw [slotsOf_cons, List.mem_append] at hslot
  rcases hslot with hslot | hslot
  · obtain ⟨x, hx, rfl⟩ := Option.map_eq_some_iff.mp (Option.mem_toList.mp hslot)
    exact h.apart e (List.mem_of_mem_head? he) x (List.mem_of_mem_head? hx)
  · refine hbetween.right slot ?_
    rw [slotsOf_cons]
    exact List.mem_append_right _ hslot

end Pairs

section Remove

variable {V K P : Type} [LaneCodec V (Segment K P)] [LaneCodec V (SparseNode K)] [DecidableEq V]
  [LinearOrder K] {c : Chain} {kinds : List Nat} {w₀ w : World V} {writes : List (Write V)}
  {old ix rest : List (Id × V)} {a b : Segs K P} {l r : LocalId × List (K × P)}
  {le re : List (K × P)} {key : K}

theorem redistribute_spec (hu : Unused c.tenant kinds w)
    (h : ChainAt kinds c w (a ++ l :: r :: b) ix) (hp : Starved c.min a l r b le re)
    (hfull : c.min * 2 ≤ le.length + re.length) :
    ∃ segs' writes w', Engine.Returns (fun fuel => c.redistribute fuel [] (leftSide a l r le)
        (rightSide l r b re)) w writes w' ∧
      Rechained kinds w w' (segCells V c.tenant c.laneHash none (a ++ l :: r :: b) none ++ ix) c c
        segs' writes ∧
      entriesOf segs' = entriesOf (a ++ (l.1, le) :: (r.1, re) :: b) := by
  have hmin := h.ok.min
  let le' := (le ++ re).take (((le ++ re).length + 1) / 2)
  let re' := (le ++ re).drop (((le ++ re).length + 1) / 2)
  have hcut : le' ++ re' = le ++ re := List.take_append_drop _ _
  have hle' : le'.length = (le.length + re.length + 1) / 2 := by
    rw [List.length_take, List.length_append]
    omega
  have hre' : re'.length = (le.length + re.length) / 2 := by
    rw [List.length_drop, List.length_append]
    omega
  have hhead : le'.head? = le.head? := by
    have hright := hp.right
    obtain ⟨e, rest, rfl⟩ := List.exists_cons_of_ne_nil
      (List.ne_nil_of_length_pos (l := le) (by omega))
    obtain ⟨e', rest', hcons⟩ := List.exists_cons_of_ne_nil
      (List.ne_nil_of_length_pos (l := le') (by omega))
    rw [hcons] at hcut ⊢
    exact congrArg some (List.cons.inj hcut).1
  have hentries : entriesOf (a ++ (l.1, le') :: (r.1, re') :: b) =
      entriesOf (a ++ (l.1, le) :: (r.1, re) :: b) := by
    rw [entriesOf_halves l.1 r.1 (x := (l.1, le ++ re)) hcut,
      entriesOf_halves l.1 r.1 (x := (l.1, le ++ re)) rfl]
  have hassoc (x y : LocalId × List (K × P)) : a ++ x :: y :: b = a ++ [x] ++ y :: b := by simp
  have hlast : lastId none (a ++ [(l.1, le')]) = some l.1 := by rw [lastId_append]; rfl
  have hputl := put_segment le' h.start
  rw [hassoc (l.1, le')] at hputl
  have hput := put_segment re' hputl
  rw [hlast, ← hassoc] at hput
  have hslots := slotsOf_ascending h.shape.sorted
  have hix := h.indexed
  rw [slotsOf_append, slotsOf_cons, slotsOf_cons, ← List.append_assoc] at hslots hix
  have hlow : ∀ k ∈ le'.head?.map Prod.fst,
      Between (slotsOf a) ((slotOf r).toList ++ slotsOf b) k := by
    rw [hhead, ← slotsOf_cons]
    exact hp.between
  obtain ⟨writes, ix', w', hret, hplan, hix'⟩ := reindex_pair h.ok.index hu
    (hput.perm List.perm_append_comm) (slotOf r) hix hslots l.1 r.1 ⟨lastId none a, some r.1, le'⟩
    ⟨some l.1, firstId b none, re'⟩ hlow (hentries ▸ hp.sorted)
  rw [slotOf_first, slotOf_first] at hret
  refine ⟨_, writes, w', hret, ⟨rfl, ?_, ix', hix', hplan.perm List.perm_append_comm⟩, hentries⟩
  have hsplice (x y : LocalId × List (K × P)) : a ++ x :: y :: b = a ++ [x, y] ++ b := by simp
  have hshape := hsplice l r ▸ h.shape
  have hupper := hp.upper
  rw [hsplice] at hentries ⊢
  refine hshape.splice (by simp) rfl ?_ ?_ (hentries ▸ hp.sorted) (fun _ x hx => ?_) fun x hx => ?_
  · rw [← hshape.head]
    cases a <;> rfl
  · rw [← hshape.tail]
    simp [lastId_append, lastId]
  · simp only [List.mem_cons, List.not_mem_nil, or_false] at hx
    rcases hx with rfl | rfl <;> simp only [hle', hre'] <;> omega
  · simp only [List.mem_cons, List.not_mem_nil, or_false] at hx
    rcases hx with rfl | rfl <;> simp only [hle', hre'] <;> omega

theorem refile_spec (hok : ∀ t ∈ c.index, IndexOk c.tenant kinds t)
    (hu : Unused c.tenant kinds w₀) (h : Planned c.tenant kinds w₀ w writes old (ix ++ rest))
    {slots before after : List (Slot K)} {m : Option (Slot K)} {gone : K}
    (hix : Indexed c.index slots ix) (hs : Ascending Slot.first slots)
    (hgone : below Slot.first gone slots ++ above Slot.first gone slots =
      before ++ m.toList ++ after) (id : LocalId) (seg : Segment K P)
    (hnow : ∀ k ∈ seg.firstKey, Between before after k) :
    ∃ writes' ix' w', Engine.Returns (fun fuel =>
        c.refile fuel writes (some gone) ⟨id, seg, m.map Slot.first⟩) w writes' w' ∧
      Planned c.tenant kinds w₀ w' writes' old (ix' ++ rest) ∧
      Indexed c.index (before ++ (slotOf (id, seg.entries)).toList ++ after) ix' := by
  have hs' := ascending_drop hs gone
  rw [hgone] at hs'
  cases hindex : c.index with
  | none =>
    rw [hindex] at hix
    have hix' : Indexed c.index (before ++ m.toList ++ after) ix := by rw [hindex]; exact hix
    have hplace := reindex_place hok hu h hix' hs' id seg hnow
    simpa only [Chain.refile, hindex] using hplace
  | some t =>
    rw [hindex] at hix
    obtain ⟨writes₁, ix₁, w₁, hret₁, hplan₁, hix₁⟩ :=
      unfile_spec (hok t hindex) hu h hix hs gone
    rw [hgone, ← hindex] at hix₁
    obtain ⟨writes₂, ix₂, w₂, hret₂, hplan₂, hix₂⟩ :=
      reindex_place hok hu hplan₁ hix₁ hs' id seg hnow
    refine ⟨writes₂, ix₂, w₂, ?_, hplan₂, by rwa [hindex] at hix₂⟩
    simp only [Chain.refile, hindex]
    exact hret₁.bind hret₂

omit [LaneCodec V (SparseNode K)] [LinearOrder K] in
theorem merge_left (h : Planned c.tenant kinds w₀ w writes old
      (segCells V c.tenant c.laneHash none (a ++ l :: r :: b) none ++ ix)) (all : List (K × P)) :
    ∃ writes', (c.attach K P writes (firstId b none) l.1 false).runIn w =
        (.ok (if b = [] then { c with tail := l.1 } else c, writes'), w) ∧
      Planned c.tenant kinds w₀ w
        (writes' ++ [c.erase r.1, c.put l.1 ⟨lastId none a, firstId b none, all⟩]) old
        (segCells V c.tenant c.laneHash none (a ++ (l.1, all) :: b) none ++ ix) := by
  have hpair := (segCells_focus_pair (V := V) c.tenant c.laneHash none none a b l r).append_right ix
  let cell (id : LocalId) (seg : Segment K P) : Id × V :=
    (id.toId c.tenant, LaneCodec.toBytes c.laneHash seg)
  have hfirst : Planned c.tenant kinds w₀ w writes old
      (segCells V c.tenant c.laneHash (some r.1) b none ++
        (cell r.1 ⟨some l.1, firstId b none, r.2⟩ :: cell l.1 ⟨lastId none a, some r.1, l.2⟩ ::
          (segCells V c.tenant c.laneHash none a (some l.1) ++ ix))) := by
    refine (h.perm hpair).perm ?_
    rw [← Multiset.coe_eq_coe]
    simp only [← Multiset.coe_add, ← Multiset.cons_coe, ← Multiset.singleton_add, cell]
    abel
  obtain ⟨writes', hattach, hplan⟩ := attach_next b (some r.1) l.1 hfirst
  refine ⟨writes', hattach, ?_⟩
  have hfree := (hplan.perm List.perm_middle).free c.laneHash
  have hput := (hfree.perm List.perm_middle).put
    (LaneCodec.toBytes c.laneHash (⟨lastId none a, firstId b none, all⟩ : Segment K P))
  rw [List.append_assoc] at hput
  have hfocus := (segCells_focus (V := V) c.tenant c.laneHash none none a b (l.1, all)).append_right ix
  refine hput.perm (hfocus.trans ?_).symm
  rw [← Multiset.coe_eq_coe]
  simp only [← Multiset.coe_add, ← Multiset.cons_coe, ← Multiset.singleton_add]
  abel

omit [LaneCodec V (SparseNode K)] [LinearOrder K] in
theorem merge_right (h : Planned c.tenant kinds w₀ w writes old
      (segCells V c.tenant c.laneHash none (a ++ l :: r :: b) none ++ ix)) (all : List (K × P)) :
    ∃ writes', (c.attach K P writes (lastId none a) r.1 true).runIn w =
        (.ok (if a = [] then { c with head := r.1 } else c, writes'), w) ∧
      Planned c.tenant kinds w₀ w
        (writes' ++ [c.erase l.1, c.put r.1 ⟨lastId none a, firstId b none, all⟩]) old
        (segCells V c.tenant c.laneHash none (a ++ (r.1, all) :: b) none ++ ix) := by
  have hpair := (segCells_focus_pair (V := V) c.tenant c.laneHash none none a b l r).append_right ix
  let cell (id : LocalId) (seg : Segment K P) : Id × V :=
    (id.toId c.tenant, LaneCodec.toBytes c.laneHash seg)
  have hfirst : Planned c.tenant kinds w₀ w writes old
      (segCells V c.tenant c.laneHash none a (some l.1) ++
        (cell l.1 ⟨lastId none a, some r.1, l.2⟩ :: cell r.1 ⟨some l.1, firstId b none, r.2⟩ ::
          (segCells V c.tenant c.laneHash (some r.1) b none ++ ix))) := by
    refine (h.perm hpair).perm ?_
    rw [← Multiset.coe_eq_coe]
    simp only [← Multiset.coe_add, ← Multiset.cons_coe, ← Multiset.singleton_add, cell]
    abel
  obtain ⟨writes', hattach, hplan⟩ := attach_prev a (some l.1) r.1 hfirst
  refine ⟨writes', hattach, ?_⟩
  have hfree := (hplan.perm List.perm_middle).free c.laneHash
  have hput := (hfree.perm List.perm_middle).put
    (LaneCodec.toBytes c.laneHash (⟨lastId none a, firstId b none, all⟩ : Segment K P))
  rw [List.append_assoc] at hput
  have hfocus := (segCells_focus (V := V) c.tenant c.laneHash none none a b (r.1, all)).append_right ix
  refine hput.perm (hfocus.trans ?_).symm
  rw [← Multiset.coe_eq_coe]
  simp only [← Multiset.coe_add, ← Multiset.cons_coe, ← Multiset.singleton_add]
  abel

omit [LaneCodec V (Segment K P)] [LaneCodec V (SparseNode K)] [DecidableEq V] in
theorem Starved.merged (hshape : ChainShape c (a ++ l :: r :: b))
    (hp : Starved c.min a l r b le re) (hfit : le.length + re.length < c.min * 2) {c' : Chain}
    {id : LocalId} (hmin : c'.min = c.min) (hhead : firstId a (some id) = some c'.head)
    (htail : lastId (some id) b = some c'.tail) : ChainShape c' (a ++ (id, le ++ re) :: b) := by
  have hsplice (x y : LocalId × List (K × P)) : a ++ x :: y :: b = a ++ [x, y] ++ b := by simp
  have hsplice' (x : LocalId × List (K × P)) : a ++ x :: b = a ++ [x] ++ b := by simp
  have hsorted := hp.sorted
  rw [entriesOf_halves l.1 r.1 (x := (id, le ++ re)) rfl, hsplice'] at hsorted
  have hlower := hp.lower
  rw [hsplice] at hshape
  rw [hsplice']
  refine hshape.splice (by simp) hmin ?_ ?_ hsorted (fun _ x hx => ?_) fun x hx => ?_
  · rw [List.append_assoc, firstId_append]
    exact hhead
  · rw [lastId_append, lastId_append]
    exact htail
  · rw [List.mem_singleton.mp hx, List.length_append]
    exact hlower
  · rw [List.mem_singleton.mp hx, List.length_append]
    exact hfit

theorem merge_spec (hu : Unused c.tenant kinds w)
    (h : ChainAt kinds c w (a ++ l :: r :: b) ix) (hp : Starved c.min a l r b le re)
    (hfit : le.length + re.length < c.min * 2) :
    ∃ c' segs' writes w', Engine.Returns (fun fuel => c.merge fuel [] (leftSide a l r le)
        (rightSide l r b re)) w (c', writes) w' ∧
      Rechained kinds w w' (segCells V c.tenant c.laneHash none (a ++ l :: r :: b) none ++ ix) c c'
        segs' writes ∧
      entriesOf segs' = entriesOf (a ++ (l.1, le) :: (r.1, re) :: b) := by
  have hfull := h.shape.full (by simp; omega)
  obtain ⟨el, restl, hl⟩ := List.exists_cons_of_ne_nil (hfull l (by simp))
  obtain ⟨er, restr, hr⟩ := List.exists_cons_of_ne_nil (hfull r (by simp))
  have hslotl : slotOf l = some ⟨el.1, l.1, l.2.length⟩ := by simp [slotOf, hl]
  have hslotr : slotOf r = some ⟨er.1, r.1, r.2.length⟩ := by simp [slotOf, hr]
  have hslots := slotsOf_ascending h.shape.sorted
  have hentries (id : LocalId) : entriesOf (a ++ (id, le ++ re) :: b) =
      entriesOf (a ++ (l.1, le) :: (r.1, re) :: b) :=
    (entriesOf_halves l.1 r.1 (x := (id, le ++ re)) rfl).symm
  have hnow (id : LocalId) := between_first (s := (id, le ++ re)) (hentries id ▸ hp.sorted)
  by_cases hkeep : l.1 = c.head ∨ r.1 ≠ c.tail
  · obtain ⟨writes₁, hattach, hplan⟩ := merge_left h.start (le ++ re)
    -- The handle moves its tail when the tail is absorbed.
    obtain ⟨tl, hc', htl⟩ : ∃ tl, (if b = [] then { c with tail := l.1 } else c) =
        { c with tail := tl } ∧ lastId (some l.1) b = some tl := by
      cases b with
      | nil => exact ⟨l.1, rfl, rfl⟩
      | cons x b =>
        refine ⟨c.tail, rfl, ?_⟩
        rw [← h.shape.tail, lastId_append]
        rfl
    rw [hc'] at hattach
    have hgone : below Slot.first er.1 (slotsOf (a ++ l :: r :: b)) ++
        above Slot.first er.1 (slotsOf (a ++ l :: r :: b)) =
          slotsOf a ++ (slotOf l).toList ++ slotsOf b := by
      have hsplit : slotsOf (a ++ l :: r :: b) =
          slotsOf a ++ (slotOf l).toList ++ ⟨er.1, r.1, r.2.length⟩ :: slotsOf b := by
        rw [slotsOf_append, slotsOf_cons, slotsOf_cons, hslotr]
        simp
      rw [hsplit] at hslots ⊢
      exact drop_at hslots
    obtain ⟨writes₂, ix₂, w₂, hret, hplan₂, hix₂⟩ := refile_spec h.ok.index hu
      (hplan.perm List.perm_append_comm) h.indexed hslots hgone l.1
      ⟨lastId none a, firstId b none, le ++ re⟩ (hnow l.1)
    refine ⟨{ c with tail := tl }, _, writes₂, w₂, ?_, ⟨rfl, ?_, ix₂, ?_,
      hplan₂.perm List.perm_append_comm⟩, hentries l.1⟩
    · simp only [Chain.merge, leftSide, rightSide, hkeep, if_true]
      refine (Engine.Returns.of_run hattach).bind ?_
      rw [slotOf_first] at hret
      have hr' : r.2.head?.map Prod.fst = some er.1 := by rw [hr]; rfl
      rw [hr']
      exact hret.bind (.of_run rfl)
    · refine hp.merged h.shape hfit rfl ?_ htl
      rw [← h.shape.head]
      cases a <;> rfl
    · rw [slotsOf_append, slotsOf_cons, ← List.append_assoc]
      exact hix₂
  · rw [not_or, not_not] at hkeep
    obtain ⟨hl_head, hr_tail⟩ := hkeep
    have ha : a ≠ [] := by
      rintro rfl
      exact hl_head (Option.some.inj h.shape.head)
    obtain ⟨writes₁, hattach, hplan⟩ := merge_right h.start (le ++ re)
    rw [if_neg ha] at hattach
    have hgone : below Slot.first el.1 (slotsOf (a ++ l :: r :: b)) ++
        above Slot.first el.1 (slotsOf (a ++ l :: r :: b)) =
          slotsOf a ++ (slotOf r).toList ++ slotsOf b := by
      have hsplit : slotsOf (a ++ l :: r :: b) =
          slotsOf a ++ ⟨el.1, l.1, l.2.length⟩ :: ((slotOf r).toList ++ slotsOf b) := by
        rw [slotsOf_append, slotsOf_cons, slotsOf_cons, hslotl]
        simp
      rw [hsplit] at hslots ⊢
      rw [List.append_assoc]
      exact drop_at hslots
    obtain ⟨writes₂, ix₂, w₂, hret, hplan₂, hix₂⟩ := refile_spec h.ok.index hu
      (hplan.perm List.perm_append_comm) h.indexed hslots hgone r.1
      ⟨lastId none a, firstId b none, le ++ re⟩ (hnow r.1)
    refine ⟨c, _, writes₂, w₂, ?_, ⟨rfl, ?_, ix₂, ?_, hplan₂.perm List.perm_append_comm⟩,
      hentries r.1⟩
    · simp only [Chain.merge, leftSide, rightSide, hl_head, hr_tail, ne_eq, not_true_eq_false,
        or_self, if_false]
      rw [slotOf_first] at hret
      have hl' : l.2.head?.map Prod.fst = some el.1 := by rw [hl]; rfl
      refine (Engine.Returns.of_run (hr_tail ▸ hattach)).bind ?_
      rw [hl', ← hr_tail]
      exact hret.bind (.of_run rfl)
    · refine hp.merged h.shape hfit rfl ?_ ?_
      · rw [← h.shape.head, firstId_append]
        cases a with
        | nil => exact absurd rfl ha
        | cons x a => rfl
      · rw [← h.shape.tail, lastId_append]
        rfl
    · rw [slotsOf_append, slotsOf_cons, ← List.append_assoc]
      exact hix₂

theorem balance_spec (hu : Unused c.tenant kinds w)
    (h : ChainAt kinds c w (a ++ l :: r :: b) ix) (hp : Starved c.min a l r b le re) :
    ∃ c' segs' writes w', Engine.Returns (fun fuel =>
        if c.min * 2 ≤ le.length + re.length then
          (do return (c, ← c.redistribute fuel [] (leftSide a l r le) (rightSide l r b re)))
        else c.merge fuel [] (leftSide a l r le) (rightSide l r b re)) w (c', writes) w' ∧
      Rechained kinds w w' (segCells V c.tenant c.laneHash none (a ++ l :: r :: b) none ++ ix) c c'
        segs' writes ∧
      entriesOf segs' = entriesOf (a ++ (l.1, le) :: (r.1, re) :: b) := by
  by_cases hfull : c.min * 2 ≤ le.length + re.length
  · obtain ⟨segs', writes, w', hret, hre, hentries⟩ := redistribute_spec hu h hp hfull
    refine ⟨c, segs', writes, w', ?_, hre, hentries⟩
    simp only [if_pos hfull]
    exact hret.bind (.of_run rfl)
  · obtain ⟨c', segs', writes, w', hret, hre, hentries⟩ := merge_spec hu h hp (not_le.mp hfull)
    refine ⟨c', segs', writes, w', ?_, hre, hentries⟩
    simp only [if_neg hfull]
    exact hret

omit [LaneCodec V (SparseNode K)] [DecidableEq V] in
theorem drop_entries {s : LocalId × List (K × P)} (ha : ∀ e ∈ entriesOf a, e.1 < key)
    (hb : ∀ e ∈ entriesOf b, key < e.1) :
    entriesOf (a ++ (s.1, below Prod.fst key s.2 ++ above Prod.fst key s.2) :: b) =
      below Prod.fst key (entriesOf (a ++ s :: b)) ++
        above Prod.fst key (entriesOf (a ++ s :: b)) := by
  obtain ⟨hbelow, habove⟩ := parts_middle ha hb s.2
  simp only [entriesOf_append, entriesOf_cons, ← List.append_assoc] at hbelow habove ⊢
  rw [hbelow, habove]
  simp

theorem rebalance_spec (hu : Unused c.tenant kinds w) {s : LocalId × List (K × P)}
    (h : ChainAt kinds c w (a ++ s :: b) ix) {entries : List (K × P)} {other : LocalId}
    (hsorted : Ascending Prod.fst (entriesOf (a ++ (s.1, entries) :: b)))
    (hlen : entries.length + 1 = s.2.length)
    (hshort : entries.length ≤ c.min / 2)
    (hother : ((firstId b none).orElse fun _ => lastId none a) = some other) :
    ∃ c' segs' writes w', Engine.Returns (fun fuel => c.rebalance fuel []
        ⟨s.1, (⟨lastId none a, firstId b none, entries⟩ : Segment K P),
          s.2.head?.map Prod.fst⟩ other) w (c', writes) w' ∧
      Rechained kinds w w' (segCells V c.tenant c.laneHash none (a ++ s :: b) none ++ ix) c c'
        segs' writes ∧
      entriesOf segs' = entriesOf (a ++ (s.1, entries) :: b) := by
  have hmin := h.ok.min
  simp only [Chain.rebalance]
  cases b with
  | cons n b =>
    obtain rfl : n.1 = other := Option.some.inj hother
    have hload := load_onView n.1 (⟨some s.1, firstId b none, n.2⟩ : Segment K P) h.start (by
      simp [segCells_append, segCells])
    have hlower := h.shape.lower (by simp; omega)
    have hupper := h.shape.upper n (by simp)
    have hs := hlower s (by simp)
    have hp : Starved c.min a s n b entries n.2 := by
      refine ⟨hsorted, neighbours_apart hsorted, by omega, hupper, ?_, by omega⟩
      have := hlower n (by simp)
      omega
    obtain ⟨c', segs', writes, w', hret, hre, hentries⟩ := balance_spec hu h hp
    refine ⟨c', segs', writes, w', (Engine.Returns.of_run hload).bind ?_, hre, hentries⟩
    simp only [firstId, if_true]
    exact hret
  | nil =>
    obtain ⟨a, p, rfl⟩ := (List.eq_nil_or_concat a).resolve_left (by rintro rfl; cases hother)
    rw [List.concat_eq_append] at *
    have hprev : lastId none (a ++ [p]) = some p.1 := by rw [lastId_append]; rfl
    have hassoc (x : LocalId × List (K × P)) : a ++ [p] ++ [x] = a ++ p :: [x] := by simp
    obtain rfl : p.1 = other := by
      rw [hprev] at hother
      exact Option.some.inj hother
    simp only [hassoc] at h hsorted ⊢
    have hload := load_onView p.1 (⟨lastId none a, some s.1, p.2⟩ : Segment K P) h.start (by
      simp [segCells_append, segCells, firstId])
    have hlower := h.shape.lower (by simp)
    have hupper := h.shape.upper p (by simp)
    have hmate := hlower p (by simp)
    have hp : Starved c.min a p s [] p.2 entries := by
      exact ⟨hsorted, neighbours_apart h.shape.sorted, hupper, by omega, by omega, by omega⟩
    obtain ⟨c', segs', writes, w', hret, hre, hentries⟩ := balance_spec hu h hp
    refine ⟨c', segs', writes, w', (Engine.Returns.of_run hload).bind ?_, hre, hentries⟩
    simp only [firstId, hprev]
    exact hret

omit [LaneCodec V (Segment K P)] [LaneCodec V (SparseNode K)] [DecidableEq V] [LinearOrder K] in
theorem alone_of_no_neighbour {s : LocalId × List (K × P)}
    (h : ((firstId b none).orElse fun _ => lastId none a) = none) : (a ++ s :: b).length = 1 := by
  cases b with
  | cons n b => cases h
  | nil =>
    rcases List.eq_nil_or_concat a with rfl | ⟨a, p, rfl⟩
    · rfl
    · rw [List.concat_eq_append, lastId_append] at h
      cases h

theorem planRemove_chain_spec {segs : Segs K P} (hu : Unused c.tenant kinds w)
    (h : ChainAt kinds c w segs ix) (key : K) :
    (key ∉ (entriesOf segs).map Prod.fst ∧
      Engine.Returns (fun fuel => c.planRemove fuel key P) w (c, none) w) ∨
    (key ∈ (entriesOf segs).map Prod.fst ∧ ∃ c' segs' writes w',
      Engine.Returns (fun fuel => c.planRemove fuel key P) w (c', some writes) w' ∧
      Rechained kinds w w' (segCells V c.tenant c.laneHash none segs none ++ ix) c c'
        segs' writes ∧
      entriesOf segs' = below Prod.fst key (entriesOf segs) ++
        above Prod.fst key (entriesOf segs)) := by
  obtain ⟨a, s, b, rfl, ha, hb, hmid, hlocate⟩ := h.locate key
  have hmem : key ∈ (entriesOf (a ++ s :: b)).map Prod.fst ↔ key ∈ s.2.map Prod.fst := by
    simp only [entriesOf_append, entriesOf_cons, List.map_append, List.mem_append]
    constructor
    · rintro (hk | hk | hk)
      · obtain ⟨e, he, rfl⟩ := List.mem_map.mp hk
        exact absurd (ha e he) (lt_irrefl _)
      · exact hk
      · obtain ⟨e, he, rfl⟩ := List.mem_map.mp hk
        exact absurd (hb e he) (lt_irrefl _)
    · exact fun hk => .inr (.inl hk)
  have hentries := drop_entries (s := s) ha hb
  have hsorted := ascending_drop h.shape.sorted key
  rw [← hentries] at hsorted ⊢
  rw [hmem]
  simp only [Chain.planRemove]
  rcases remove_eq ⟨lastId none a, firstId b none, s.2⟩ hmid key with
    ⟨hremove, hk⟩ | ⟨hremove, hk, hlen⟩
  · refine .inl ⟨hk, hlocate.bind ⟨0, fun fuel _ => ?_⟩⟩
    simp only [hremove]
    rfl
  · refine .inr ⟨hk, ?_⟩
    have hupper := h.shape.upper s (by simp)
    simp only at hlen
    -- A segment that is not rebalanced is long enough or alone.
    have hplain (hlong : c.min / 2 < (below Prod.fst key s.2 ++ above Prod.fst key s.2).length ∨
        (a ++ s :: b).length = 1) := rewrite_spec hu h hsorted
      (fun hlen => hlong.resolve_right (by omega)) (by omega)
    by_cases hshort : (below Prod.fst key s.2 ++ above Prod.fst key s.2).length ≤ c.min / 2
    · cases hnext : (firstId b none).orElse fun _ => lastId none a with
      | some other =>
        obtain ⟨c', segs', writes, w', hret, hre, hsegs⟩ :=
          rebalance_spec hu h hsorted hlen hshort hnext
        refine ⟨c', segs', writes, w', hlocate.bind ?_, hre, hsegs⟩
        simp only [hremove, Segment.len, if_pos hshort, hnext]
        exact hret.bind (.of_run rfl)
      | none =>
        obtain ⟨writes, w', hret, hre⟩ := hplain (.inr (alone_of_no_neighbour hnext))
        refine ⟨c, _, writes, w', hlocate.bind ?_, hre, rfl⟩
        simp only [hremove, Segment.len, if_pos hshort, hnext]
        exact hret.bind (.of_run rfl)
    · obtain ⟨writes, w', hret, hre⟩ := hplain (.inl (not_le.mp hshort))
      refine ⟨c, _, writes, w', hlocate.bind ?_, hre, rfl⟩
      simp only [hremove, Segment.len, hshort, if_false]
      exact hret.bind (.of_run rfl)

end Remove

end WaveDb.Index
