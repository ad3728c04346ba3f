import WaveDb.Index.Chain.Place

namespace WaveDb.Index

open WaveDb.Lib WaveDb.Core

section Insert

variable {V K P : Type} [LaneCodec V (Segment K P)] [LaneCodec V (SparseNode K)] [DecidableEq V]
  [LinearOrder K] {c : Chain} {kinds : List Nat} {w₀ w : World V} {writes : List (Write V)}
  {old ix rest : List (Id × V)} {a b : Segs K P} {s : LocalId × List (K × P)} {key : K}

-- Filing two segments where one stood: the lower takes its place.
theorem reindex_halves (hok : ∀ t ∈ c.index, IndexOk c.tenant kinds t)
    (hu : Unused c.tenant kinds w₀) (h : Planned c.tenant kinds w₀ w writes old (ix ++ rest))
    (hix : Indexed c.index (slotsOf (a ++ s :: b)) ix)
    (hs : Ascending Prod.fst (entriesOf (a ++ s :: b))) (i j : LocalId) (l r : Segment K P)
    (hs' : Ascending Prod.fst (entriesOf (a ++ (i, l.entries) :: (j, r.entries) :: b))) :
    ∃ writes' ix' w', Engine.Returns (fun fuel =>
        c.reindex fuel writes (s.2.head?.map Prod.fst) i l >>= fun writes =>
          c.reindex fuel writes none j r) w writes' w' ∧
      Planned c.tenant kinds w₀ w' writes' old (ix' ++ rest) ∧
      Indexed c.index (slotsOf (a ++ (i, l.entries) :: (j, r.entries) :: b)) ix' := by
  have hslots := slotsOf_ascending hs
  rw [slotsOf_append, slotsOf_cons, ← List.append_assoc] at hslots hix
  rw [← slotOf_first]
  refine reindex_pair hok hu h none hix hslots i j l r (fun k hk => ?_) hs'
  have hbetween := between_first hs' k hk
  refine ⟨hbetween.left, fun slot hslot => hbetween.right slot ?_⟩
  rw [slotsOf_cons]
  exact List.mem_append_right _ hslot

omit [LaneCodec V (SparseNode K)] [DecidableEq V] [LinearOrder K] in
theorem put_halves {id : LocalId} (fresh : LocalId) {v : V} {cells : List (Id × V)}
    (h : Planned c.tenant kinds w₀ w writes old ((id.toId c.tenant, v) :: cells))
    (hnew : fresh.toId c.tenant ∉ addrs ((id.toId c.tenant, v) :: cells))
    (hgiven : Given c.tenant kinds w₀ w (fresh.toId c.tenant))
    (kept made : Segment K P) :
    Planned c.tenant kinds w₀ w (writes ++ [c.put id kept, c.put fresh made]) old
      ((fresh.toId c.tenant, LaneCodec.toBytes c.laneHash made) ::
        (id.toId c.tenant, LaneCodec.toBytes c.laneHash kept) :: cells) := by
  have hadd := (h.put (LaneCodec.toBytes c.laneHash kept)).add
    (LaneCodec.toBytes c.laneHash made) hnew hgiven
  rwa [List.append_assoc] at hadd

omit [LaneCodec V (SparseNode K)] [LinearOrder K] in
theorem split_tail (hu : Unused c.tenant kinds w₀) (hk : laneLower c.laneHash ∈ kinds)
    (h : Planned c.tenant kinds w₀ w writes old
      (segCells V c.tenant c.laneHash none (a ++ [s]) none ++ ix)) (lower upper : List (K × P)) :
    ∃ (fresh : LocalId) (writes' : List (Write V)),
      (mintLaneId c.laneHash : Engine V LocalId).runIn w = (.ok fresh, w.tick) ∧
      (c.attach K P writes (lastId none a) fresh true).runIn w.tick =
        (.ok (if a = [] then { c with head := fresh } else c, writes'), w.tick) ∧
      Planned c.tenant kinds w₀ w.tick (writes' ++
          [c.put s.1 ⟨some fresh, none, upper⟩, c.put fresh ⟨lastId none a, some s.1, lower⟩]) old
        (segCells V c.tenant c.laneHash none (a ++ [(fresh, lower), (s.1, upper)]) none ++ ix) := by
  obtain ⟨hnew, hgiven⟩ := h.minted hu hk
  let fresh : LocalId := ⟨w.clock 0, laneLower c.laneHash⟩
  change fresh.toId c.tenant ∉ _ at hnew
  have hfocus := (segCells_focus (V := V) c.tenant c.laneHash none none a [] s).append_right ix
  obtain ⟨writes', hattach, hplan⟩ := attach_prev a (some s.1) fresh
    ((h.tick.perm hfocus).perm (by simpa [segCells] using List.perm_middle.symm))
  refine ⟨fresh, writes', runIn_mintLaneId c.laneHash w, hattach, ?_⟩
  have hputs := put_halves fresh (hplan.perm List.perm_middle) (by
    simpa [addrs_segCells, and_left_comm] using hnew) hgiven
    (⟨some fresh, none, upper⟩ : Segment K P) ⟨lastId none a, some s.1, lower⟩
  have hpair := (segCells_focus_pair (V := V) c.tenant c.laneHash none none a []
    (fresh, lower) (s.1, upper)).append_right ix
  refine hputs.perm (hpair.trans ?_).symm
  simp [segCells, firstId]

omit [LaneCodec V (SparseNode K)] [LinearOrder K] in
theorem split_inner (hu : Unused c.tenant kinds w₀) (hk : laneLower c.laneHash ∈ kinds)
    (h : Planned c.tenant kinds w₀ w writes old
      (segCells V c.tenant c.laneHash none (a ++ s :: b) none ++ ix)) (hb : b ≠ [])
    (lower upper : List (K × P)) :
    ∃ (fresh : LocalId) (writes' : List (Write V)),
      (mintLaneId c.laneHash : Engine V LocalId).runIn w = (.ok fresh, w.tick) ∧
      (c.attach K P writes (firstId b none) fresh false).runIn w.tick =
        (.ok (c, writes'), w.tick) ∧
      Planned c.tenant kinds w₀ w.tick (writes' ++ [c.put s.1 ⟨lastId none a, some fresh, lower⟩,
          c.put fresh ⟨some s.1, firstId b none, upper⟩]) old
        (segCells V c.tenant c.laneHash none (a ++ (s.1, lower) :: (fresh, upper) :: b) none ++
          ix) := by
  obtain ⟨hnew, hgiven⟩ := h.minted hu hk
  let fresh : LocalId := ⟨w.clock 0, laneLower c.laneHash⟩
  change fresh.toId c.tenant ∉ _ at hnew
  have hfocus := (segCells_focus (V := V) c.tenant c.laneHash none none a b s).append_right ix
  have hfirst : Planned c.tenant kinds w₀ w.tick writes old
      (segCells V c.tenant c.laneHash (some s.1) b none ++
        ((s.1.toId c.tenant, LaneCodec.toBytes c.laneHash
          (⟨lastId none a, firstId b none, s.2⟩ : Segment K P)) ::
          (segCells V c.tenant c.laneHash none a (some s.1) ++ ix))) := by
    refine (h.tick.perm hfocus).perm ?_
    rw [← Multiset.coe_eq_coe]
    simp only [← Multiset.coe_add, ← Multiset.cons_coe, ← Multiset.singleton_add]
    abel
  obtain ⟨writes', hattach, hplan⟩ := attach_next b (some s.1) fresh hfirst
  rw [if_neg hb] at hattach
  refine ⟨fresh, writes', runIn_mintLaneId c.laneHash w, hattach, ?_⟩
  have hputs := put_halves fresh (hplan.perm List.perm_middle) (by
    simpa [addrs_segCells, and_left_comm, and_comm, and_assoc] using hnew) hgiven
    (⟨lastId none a, some fresh, lower⟩ : Segment K P) ⟨some s.1, firstId b none, upper⟩
  have hpair := (segCells_focus_pair (V := V) c.tenant c.laneHash none none a b
    (s.1, lower) (fresh, upper)).append_right ix
  refine hputs.perm (hpair.trans ?_).symm
  rw [← Multiset.coe_eq_coe]
  simp only [← Multiset.coe_add, ← Multiset.cons_coe, ← Multiset.singleton_add]
  abel

omit [LaneCodec V (SparseNode K)] [DecidableEq V] [LinearOrder K] in
theorem entriesOf_halves (i j : LocalId) {l r : List (K × P)} {x : LocalId × List (K × P)}
    (h : l ++ r = x.2) :
    entriesOf (a ++ (i, l) :: (j, r) :: b) = entriesOf (a ++ x :: b) := by
  simp only [entriesOf_append, entriesOf_cons, ← h, List.append_assoc]

theorem split_spec (hu : Unused c.tenant kinds w) (h : ChainAt kinds c w (a ++ s :: b) ix)
    {entries : List (K × P)} (hlen : entries.length = c.min * 2)
    (hsorted : Ascending Prod.fst (entriesOf (a ++ (s.1, entries) :: b))) :
    ∃ c' segs' writes w', Engine.Returns (fun fuel => c.split fuel []  s.1
        ⟨lastId none a, firstId b none, entries⟩ (s.2.head?.map Prod.fst)) w (c', writes) w' ∧
      Rechained kinds w w' (segCells V c.tenant c.laneHash none (a ++ s :: b) none ++ ix) c c'
        segs' writes ∧
      entriesOf segs' = entriesOf (a ++ (s.1, entries) :: b) := by
  have hmin := h.ok.min
  have hcut := List.take_append_drop (entries.length / 2) entries
  have hlower : (entries.take (entries.length / 2)).length = c.min := by
    rw [List.length_take]
    omega
  have hupper : (entries.drop (entries.length / 2)).length = c.min := by
    rw [List.length_drop]
    omega
  have hsplice : a ++ s :: b = a ++ [s] ++ b := by simp
  have hshape := hsplice ▸ h.shape
  by_cases hb : b = []
  · subst hb
    obtain ⟨fresh, writes₁, hmint, hattach, hplan⟩ := split_tail hu h.ok.kind h.start
      (entries.take (entries.length / 2)) (entries.drop (entries.length / 2))
    have hentries := entriesOf_halves (a := a) (b := []) fresh s.1 (x := (s.1, entries)) hcut
    obtain ⟨writes₂, ix₂, w₂, hret, hplan₂, hix₂⟩ := reindex_halves h.ok.index hu
      (hplan.perm List.perm_append_comm) h.indexed h.shape.sorted fresh s.1
      ⟨lastId none a, some s.1, entries.take (entries.length / 2)⟩
      ⟨some fresh, none, entries.drop (entries.length / 2)⟩ (hentries ▸ hsorted)
    -- The handle moves its head when the tail was the head too.
    obtain ⟨hd, hc', hhd⟩ : ∃ hd, (if a = [] then { c with head := fresh } else c) =
        { c with head := hd } ∧ firstId a (some fresh) = some hd := by
      cases a with
      | nil => exact ⟨fresh, rfl, rfl⟩
      | cons x a => exact ⟨c.head, rfl, h.shape.head⟩
    rw [hc'] at hattach
    refine ⟨{ c with head := hd }, _, writes₂, w₂, ?_, ⟨rfl, ?_, ix₂, hix₂,
      hplan₂.perm List.perm_append_comm⟩, hentries⟩
    · simp only [Chain.split, if_pos (h.eq_tail_iff.mpr rfl)]
      refine (Engine.Returns.of_run hmint).bind ((Engine.Returns.of_run hattach).bind ?_)
      have hindexed := hret.bind (f := fun _ writes => pure ({ c with head := hd }, writes))
        (.of_run rfl)
      simp only [bind_assoc] at hindexed
      exact hindexed
    · have hsplice' (l r : LocalId × List (K × P)) : a ++ [l, r] = a ++ [l, r] ++ [] := by simp
      rw [hsplice'] at hentries ⊢
      refine hshape.splice (by simp) rfl ?_ ?_ (hentries ▸ hsorted) (fun _ x hx => ?_) fun x hx => ?_
      · rw [List.append_nil, firstId_append]
        exact hhd
      · rw [← hshape.tail]
        simp [lastId_append, lastId]
      · simp only [List.mem_cons, List.not_mem_nil, or_false] at hx
        rcases hx with rfl | rfl <;> simp only [hlower, hupper] <;> omega
      · simp only [List.mem_cons, List.not_mem_nil, or_false] at hx
        rcases hx with rfl | rfl <;> simp only [hlower, hupper] <;> omega
  · obtain ⟨fresh, writes₁, hmint, hattach, hplan⟩ := split_inner hu h.ok.kind h.start hb
      (entries.take (entries.length / 2)) (entries.drop (entries.length / 2))
    have hentries := entriesOf_halves (a := a) (b := b) s.1 fresh (x := (s.1, entries)) hcut
    obtain ⟨writes₂, ix₂, w₂, hret, hplan₂, hix₂⟩ := reindex_halves h.ok.index hu
      (hplan.perm List.perm_append_comm) h.indexed h.shape.sorted s.1 fresh
      ⟨lastId none a, some fresh, entries.take (entries.length / 2)⟩
      ⟨some s.1, firstId b none, entries.drop (entries.length / 2)⟩ (hentries ▸ hsorted)
    refine ⟨c, _, writes₂, w₂, ?_, ⟨rfl, ?_, ix₂, hix₂, hplan₂.perm List.perm_append_comm⟩, hentries⟩
    · simp only [Chain.split, if_neg (mt h.eq_tail_iff.mp hb)]
      refine (Engine.Returns.of_run hmint).bind ((Engine.Returns.of_run hattach).bind ?_)
      have hindexed := hret.bind (f := fun _ writes => pure (c, writes)) (.of_run rfl)
      simpa only [bind_assoc] using hindexed
    · have hsplice' (l r : LocalId × List (K × P)) : a ++ l :: r :: b = a ++ [l, r] ++ b := by simp
      rw [hsplice'] at hentries ⊢
      refine hshape.splice (by simp) rfl ?_ ?_ (hentries ▸ hsorted) (fun _ x hx => ?_) fun x hx => ?_
      · rw [← hshape.head]
        cases a <;> rfl
      · rw [← hshape.tail, lastId_append _ b, lastId_append _ b]
        exact lastId_of_ne_nil hb _ _
      · simp only [List.mem_cons, List.not_mem_nil, or_false] at hx
        rcases hx with rfl | rfl <;> simp only [hlower, hupper] <;> omega
      · simp only [List.mem_cons, List.not_mem_nil, or_false] at hx
        rcases hx with rfl | rfl <;> simp only [hlower, hupper] <;> omega

omit [LaneCodec V (SparseNode K)] [DecidableEq V] in
theorem put_entries (ha : ∀ e ∈ entriesOf a, e.1 < key) (hb : ∀ e ∈ entriesOf b, key < e.1)
    (payload : P) :
    entriesOf (a ++ (s.1, below Prod.fst key s.2 ++ (key, payload) :: above Prod.fst key s.2) :: b) =
      below Prod.fst key (entriesOf (a ++ s :: b)) ++
        (key, payload) :: above Prod.fst key (entriesOf (a ++ s :: b)) := by
  obtain ⟨hbelow, habove⟩ := parts_middle ha hb s.2
  simp only [entriesOf_append, entriesOf_cons, ← List.append_assoc] at hbelow habove ⊢
  rw [hbelow, habove]
  simp

theorem planInsert_chain_spec {segs : Segs K P} (hu : Unused c.tenant kinds w)
    (h : ChainAt kinds c w segs ix) (key : K) (payload : P) :
    ∃ c' segs' writes w',
      Engine.Returns (fun fuel => c.planInsert fuel key payload) w (c', writes) w' ∧
      Rechained kinds w w' (segCells V c.tenant c.laneHash none segs none ++ ix) c c'
        segs' writes ∧
      entriesOf segs' = below Prod.fst key (entriesOf segs) ++
        (key, payload) :: above Prod.fst key (entriesOf segs) := by
  obtain ⟨a, s, b, rfl, ha, hb, hmid, hlocate⟩ := h.locate key
  have hinsert := insert_eq ⟨lastId none a, firstId b none, s.2⟩ hmid key payload
  have hentries := put_entries (s := s) ha hb payload
  have hsorted := ascending_put h.shape.sorted (key, payload)
  rw [← hentries] at hsorted ⊢
  obtain ⟨hge, hle⟩ := length_put hmid key (key, payload)
  have hupper := h.shape.upper s (by simp)
  simp only [Chain.planInsert]
  by_cases hfull : c.min * 2 ≤
      (below Prod.fst key s.2 ++ (key, payload) :: above Prod.fst key s.2).length
  · obtain ⟨c', segs', writes, w', hret, hre, hsegs⟩ :=
      split_spec hu h (le_antisymm (by omega) hfull) hsorted
    refine ⟨c', segs', writes, w', hlocate.bind ?_, hre, hsegs⟩
    simp only [hinsert, Segment.len, if_pos hfull, Segment.firstKey]
    exact hret
  · obtain ⟨writes, w', hret, hre⟩ := rewrite_spec hu h hsorted
      (fun hlen => (h.shape.lower hlen s (by simp)).trans_le hge) (not_le.mp hfull)
    refine ⟨c, _, writes, w', hlocate.bind ?_, hre, rfl⟩
    simp only [hinsert, Segment.len, if_neg hfull, Segment.firstKey]
    exact hret.bind (.of_run rfl)

end Insert

end WaveDb.Index
