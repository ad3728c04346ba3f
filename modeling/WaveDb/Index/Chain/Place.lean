import WaveDb.Index.Chain.Locate

namespace WaveDb.Index

open WaveDb.Lib WaveDb.Core

section Segments

variable {K P : Type} [LinearOrder K] (seg : Segment K P)

theorem insert_eq (h : Ascending Prod.fst seg.entries) (key : K) (payload : P) :
    seg.insert key payload = ⟨seg.prev, seg.next, below Prod.fst key seg.entries ++
      (key, payload) :: above Prod.fst key seg.entries⟩ := by
  obtain ⟨a, b, hbelow, habove, hcase⟩ := search_keyed h key
  rw [hbelow, habove, Segment.insert, Segment.position]
  rcases hcase with ⟨heq, hsearch⟩ | ⟨x, hx, heq, hsearch⟩
  · simp only [hsearch]
    rw [heq, insertIdx_length_append]
  · simp only [hsearch]
    rw [heq]
    simp [List.modify_eq_take_cons_drop, hx]

theorem remove_eq (h : Ascending Prod.fst seg.entries) (key : K) :
    (seg.remove key = none ∧ key ∉ seg.entries.map Prod.fst) ∨
      (seg.remove key = some ⟨seg.prev, seg.next, below Prod.fst key seg.entries ++
        above Prod.fst key seg.entries⟩ ∧ key ∈ seg.entries.map Prod.fst ∧
        (below Prod.fst key seg.entries ++ above Prod.fst key seg.entries).length + 1 =
          seg.entries.length) := by
  obtain ⟨a, b, hbelow, habove, hcase⟩ := search_keyed h key
  rw [hbelow, habove, Segment.remove, Segment.position]
  rcases hcase with ⟨heq, hsearch⟩ | ⟨x, hx, heq, hsearch⟩
  · refine .inl ⟨by simp only [hsearch], fun hmem => ?_⟩
    obtain ⟨e, he, hek⟩ := List.mem_map.mp hmem
    rw [heq, ← hbelow, ← habove, List.mem_append, mem_below, mem_above, hek] at he
    exact he.elim (fun h => lt_irrefl _ h.2) fun h => lt_irrefl _ h.2
  · have herase : seg.entries.eraseIdx a.length = a ++ b := by
      rw [heq, List.eraseIdx_append_of_length_le le_rfl, Nat.sub_self]
      rfl
    refine .inr ⟨by simp only [hsearch, herase], ?_, ?_⟩
    · rw [heq]
      simp [hx]
    · rw [heq]
      simp
      omega

theorem get_eq_some_iff (h : Ascending Prod.fst seg.entries) (key : K) (payload : P) :
    seg.get key = some payload ↔ (key, payload) ∈ seg.entries := by
  obtain ⟨a, b, hbelow, habove, hcase⟩ := search_keyed h key
  have hout : ∀ p, (key, p) ∉ a ∧ (key, p) ∉ b := fun p =>
    ⟨fun hp => lt_irrefl key (mem_below.mp (hbelow ▸ hp)).2,
      fun hp => lt_irrefl key (mem_above.mp (habove ▸ hp)).2⟩
  rw [Segment.get, Segment.position]
  rcases hcase with ⟨heq, hsearch⟩ | ⟨x, rfl, heq, hsearch⟩
  · simp only [hsearch]
    rw [heq]
    simp [hout]
  · simp only [hsearch]
    rw [heq]
    simp [hout, Prod.ext_iff, eq_comm]

end Segments

section Shapes

variable {K P : Type} [LinearOrder K] {c c' : Chain} {a b mid mid' : Segs K P}

theorem ChainShape.splice (h : ChainShape c (a ++ mid ++ b)) (hne : mid ≠ [])
    (hmin : c'.min = c.min) (hhead : firstId (a ++ mid' ++ b) none = some c'.head)
    (htail : lastId none (a ++ mid' ++ b) = some c'.tail)
    (hsorted : Ascending Prod.fst (entriesOf (a ++ mid' ++ b)))
    (hlower : 1 < (a ++ mid' ++ b).length → ∀ s ∈ mid', c.min / 2 < s.2.length)
    (hupper : ∀ s ∈ mid', s.2.length < c.min * 2) : ChainShape c' (a ++ mid' ++ b) := by
  have hlen := List.length_pos_of_ne_nil hne
  have houter : ∀ s ∈ a ++ b, 1 < (a ++ mid ++ b).length := by
    intro s hs
    have := List.length_pos_of_mem hs
    simp only [List.length_append] at this ⊢
    omega
  have hmem : ∀ s ∈ a ++ mid' ++ b, s ∈ mid' ∨ s ∈ a ++ b := by
    intro s hs
    simp only [List.mem_append] at hs ⊢
    tauto
  have hback : ∀ s ∈ a ++ b, s ∈ a ++ mid ++ b := by
    intro s hs
    simp only [List.mem_append] at hs ⊢
    tauto
  refine ⟨hhead, htail, hsorted, fun hlen s hs => ?_, fun s hs => ?_⟩
  · rw [hmin]
    rcases hmem s hs with hs | hs
    · exact hlower hlen s hs
    · exact h.lower (houter s hs) s (hback s hs)
  · rw [hmin]
    rcases hmem s hs with hs | hs
    · exact hupper s hs
    · exact h.upper s (hback s hs)

omit [LinearOrder K] in
theorem slotOf_first (s : LocalId × List (K × P)) :
    (slotOf s).map Slot.first = s.2.head?.map Prod.fst := by
  simp [slotOf, Function.comp_def]

theorem between_first {s : LocalId × List (K × P)}
    (h : Ascending Prod.fst (entriesOf (a ++ s :: b))) :
    ∀ k ∈ s.2.head?.map Prod.fst, Between (slotsOf a) (slotsOf b) k := by
  rintro k hk
  obtain ⟨e, he, rfl⟩ := Option.map_eq_some_iff.mp hk
  rw [entriesOf_append, entriesOf_cons] at h
  obtain ⟨-, hsb, hcross⟩ := h.append
  have hes := List.mem_of_mem_head? he
  refine ⟨fun slot hslot => ?_, fun slot hslot => ?_⟩
  · obtain ⟨x, hx, hfirst⟩ := mem_entriesOf_of_slot hslot
    exact hfirst ▸ hcross x hx e (by simp [hes])
  · obtain ⟨x, hx, hfirst⟩ := mem_entriesOf_of_slot hslot
    exact hfirst ▸ hsb.append.2.2 e hes x hx

theorem Between.insert {before after : List (Slot K)} {x : Slot K}
    (h : Between before after x.first) (hs : Ascending Slot.first (before ++ after)) :
    Ascending Slot.first (before ++ x :: after) := by
  obtain ⟨hb, ha, hcross⟩ := hs.append
  refine List.pairwise_append.mpr ⟨hb, List.pairwise_cons.mpr ⟨h.right, ha⟩, fun y hy z hz => ?_⟩
  rcases List.mem_cons.mp hz with rfl | hz
  · exact h.left y hy
  · exact hcross y hy z hz

end Shapes

section Places

variable {V K P : Type} [LaneCodec V (Segment K P)] [LinearOrder K] {c : Chain} {kinds : List Nat}
  {w₀ w : World V} {writes : List (Write V)} {old ix rest : List (Id × V)} {a b : Segs K P}

omit [LinearOrder K] in
theorem addrs_segCells (tenant laneHash : Nat) (prev next : Option LocalId) (segs : Segs K P) :
    addrs (segCells V tenant laneHash prev segs next) = segs.map fun s => s.1.toId tenant := by
  induction segs generalizing prev with
  | nil => rfl
  | cons s segs ih => rw [segCells, addrs_cons, ih, List.map_cons]

omit [LinearOrder K] in
theorem put_segment {s : LocalId × List (K × P)} (entries : List (K × P))
    (h : Planned c.tenant kinds w₀ w writes old
      (segCells V c.tenant c.laneHash none (a ++ s :: b) none ++ rest)) :
    Planned c.tenant kinds w₀ w
      (writes ++ [c.put s.1 ⟨lastId none a, firstId b none, entries⟩]) old
      (segCells V c.tenant c.laneHash none (a ++ (s.1, entries) :: b) none ++ rest) := by
  have hfocus := (segCells_focus (V := V) c.tenant c.laneHash none none a b s).append_right rest
  have hfocus' := (segCells_focus (V := V) c.tenant c.laneHash none none a b (s.1, entries)).append_right rest
  exact ((h.perm hfocus).put _).perm hfocus'.symm

variable [LaneCodec V (SparseNode K)] [DecidableEq V]

theorem reindex_place (hok : ∀ t ∈ c.index, IndexOk c.tenant kinds t)
    (hu : Unused c.tenant kinds w₀) (h : Planned c.tenant kinds w₀ w writes old (ix ++ rest))
    {before after : List (Slot K)} {m : Option (Slot K)}
    (hix : Indexed c.index (before ++ m.toList ++ after) ix)
    (hs : Ascending Slot.first (before ++ m.toList ++ after)) (id : LocalId) (seg : Segment K P)
    (hnow : ∀ k ∈ seg.firstKey, Between before after k) :
    ∃ writes' ix' w', Engine.Returns
        (fun fuel => c.reindex fuel writes (m.map Slot.first) id seg) w writes' w' ∧
      Planned c.tenant kinds w₀ w' writes' old (ix' ++ rest) ∧
      Indexed c.index (before ++ (slotOf (id, seg.entries)).toList ++ after) ix' := by
  obtain ⟨writes', ix', w', hret, hplan, hix'⟩ :=
    reindex_spec hok hu h hix hs (m.map Slot.first) id seg
  refine ⟨writes', ix', w', hret, hplan, ?_⟩
  have hslot : seg.firstKey.map (fun first => (⟨first, id, seg.len⟩ : Slot K)) =
      slotOf (id, seg.entries) := by
    simp [Segment.firstKey, slotOf, Segment.len, Function.comp_def]
  rw [refiled_middle m rfl ?_ hnow, hslot] at hix'
  · exact hix'
  · rintro k hk
    obtain ⟨slot, rfl, rfl⟩ := Option.map_eq_some_iff.mp hk
    obtain ⟨h₁, -, h₂⟩ := hs.append
    exact ⟨fun x hx => h₁.append.2.2 x hx slot (by simp), fun x hx => h₂ slot (by simp) x hx⟩

theorem reindex_pair (hok : ∀ t ∈ c.index, IndexOk c.tenant kinds t)
    (hu : Unused c.tenant kinds w₀) (h : Planned c.tenant kinds w₀ w writes old (ix ++ rest))
    {ml : Option (Slot K)} (mr : Option (Slot K))
    (hix : Indexed c.index (slotsOf a ++ ml.toList ++ (mr.toList ++ slotsOf b)) ix)
    (hs : Ascending Slot.first (slotsOf a ++ ml.toList ++ (mr.toList ++ slotsOf b)))
    (i j : LocalId) (l r : Segment K P)
    (hlow : ∀ k ∈ l.firstKey, Between (slotsOf a) (mr.toList ++ slotsOf b) k)
    (hs' : Ascending Prod.fst (entriesOf (a ++ (i, l.entries) :: (j, r.entries) :: b))) :
    ∃ writes' ix' w', Engine.Returns (fun fuel =>
        c.reindex fuel writes (ml.map Slot.first) i l >>= fun writes =>
          c.reindex fuel writes (mr.map Slot.first) j r) w writes' w' ∧
      Planned c.tenant kinds w₀ w' writes' old (ix' ++ rest) ∧
      Indexed c.index (slotsOf (a ++ (i, l.entries) :: (j, r.entries) :: b)) ix' := by
  obtain ⟨writes₁, ix₁, w₁, hret₁, hplan₁, hix₁⟩ := reindex_place hok hu h hix hs i l hlow
  have hmid : Ascending Slot.first (slotsOf a ++ (slotOf (i, l.entries)).toList ++
      (mr.toList ++ slotsOf b)) := by
    have hrest : Ascending Slot.first (slotsOf a ++ (mr.toList ++ slotsOf b)) :=
      hs.sublist (by simp)
    cases hslot : slotOf (i, l.entries) with
    | none => simpa using hrest
    | some slot =>
      have hfirst : slot.first ∈ l.firstKey := by
        have := slotOf_first (i, l.entries)
        rw [hslot] at this
        exact this.symm
      simpa using (hlow slot.first hfirst).insert hrest
  have hlo : slotsOf a ++ (slotOf (i, l.entries)).toList = slotsOf (a ++ [(i, l.entries)]) := by
    rw [slotsOf_append, slotsOf_cons]
    simp [slotsOf]
  have hassoc : a ++ (i, l.entries) :: (j, r.entries) :: b =
      a ++ [(i, l.entries)] ++ (j, r.entries) :: b := by simp
  rw [hlo, ← List.append_assoc] at hix₁ hmid
  rw [hassoc] at hs' ⊢
  obtain ⟨writes₂, ix₂, w₂, hret₂, hplan₂, hix₂⟩ :=
    reindex_place hok hu hplan₁ hix₁ hmid j r (between_first hs')
  refine ⟨writes₂, ix₂, w₂, hret₁.bind hret₂, hplan₂, ?_⟩
  rw [slotsOf_append, slotsOf_cons, ← List.append_assoc]
  exact hix₂

structure ChainOk (kinds : List Nat) (c : Chain) : Prop where
  min : 1 ≤ c.min
  kind : laneLower c.laneHash ∈ kinds
  index : ∀ t ∈ c.index, IndexOk c.tenant kinds t

structure ChainAt (kinds : List Nat) (c : Chain) (w : World V) (segs : Segs K P)
    (ix : List (Id × V)) : Prop where
  ok : ChainOk kinds c
  shape : ChainShape c segs
  indexed : Indexed c.index (slotsOf segs) ix
  held : Holds w.store (segCells V c.tenant c.laneHash none segs none ++ ix)
  nodup : (addrs (segCells V c.tenant c.laneHash none segs none ++ ix)).Nodup

structure Rechained (kinds : List Nat) (w₀ w : World V) (old : List (Id × V)) (c c' : Chain)
    (segs : Segs K P) (writes : List (Write V)) : Prop where
  same : c' = { c with head := c'.head, tail := c'.tail }
  shape : ChainShape c' segs
  planned : ∃ ix, Indexed c.index (slotsOf segs) ix ∧ Planned c.tenant kinds w₀ w writes old
    (segCells V c.tenant c.laneHash none segs none ++ ix)

omit [DecidableEq V] in
theorem ChainAt.start {segs : Segs K P} (h : ChainAt kinds c w segs ix) :
    Planned c.tenant kinds w w [] (segCells V c.tenant c.laneHash none segs none ++ ix)
      (segCells V c.tenant c.laneHash none segs none ++ ix) := .refl h.held h.nodup

omit [DecidableEq V] in
theorem ChainAt.ids_nodup {segs : Segs K P} (h : ChainAt kinds c w segs ix) :
    (segs.map Prod.fst).Nodup := by
  have hnodup := h.nodup
  rw [addrs_append, addrs_segCells, List.nodup_append] at hnodup
  refine List.Nodup.of_map (fun id => id.toId c.tenant) ?_
  simpa [Function.comp_def] using hnodup.1

omit [DecidableEq V] in
theorem ChainAt.eq_tail_iff {s : LocalId × List (K × P)} (h : ChainAt kinds c w (a ++ s :: b) ix) :
    s.1 = c.tail ↔ b = [] := by
  have htail := h.shape.tail
  rw [lastId_append] at htail
  constructor
  · intro heq
    rcases List.eq_nil_or_concat b with rfl | ⟨b, x, rfl⟩
    · rfl
    · have hx : x.1 = c.tail := by
        rw [List.concat_eq_append, lastId, lastId_append] at htail
        exact Option.some.inj htail
      have hnodup := h.ids_nodup
      rw [List.map_append, List.map_cons, List.nodup_append] at hnodup
      exact absurd (by simp [heq, hx]) (List.nodup_cons.mp hnodup.2.1).1
  · rintro rfl
    exact Option.some.inj htail

theorem ChainAt.locate {segs : Segs K P} (h : ChainAt kinds c w segs ix) (key : K) :
    ∃ a s b, segs = a ++ s :: b ∧ (∀ e ∈ entriesOf a, e.1 < key) ∧
      (∀ e ∈ entriesOf b, key < e.1) ∧ Ascending Prod.fst s.2 ∧
      Engine.Returns (fun fuel => Engine.onView [] (c.locate fuel key)) w
        (s.1, (⟨lastId none a, firstId b none, s.2⟩ : Segment K P)) w := by
  obtain ⟨hheld, hixheld⟩ := holds_append.mp h.held
  obtain ⟨a, s, b, rfl, ha, hb, hlocate⟩ := locate_spec h.shape h.indexed hheld hixheld key
  have hs := h.shape.sorted
  rw [entriesOf_append, entriesOf_cons] at hs
  exact ⟨a, s, b, rfl, ha, hb, hs.append.2.1.append.1, Engine.Returns.onView
    (fun fuel => asks_locate (fun t ht => (h.ok.index t ht).tenant) fuel key) [] hlocate⟩

theorem rewrite_spec {s : LocalId × List (K × P)} (hu : Unused c.tenant kinds w)
    (h : ChainAt kinds c w (a ++ s :: b) ix) {entries : List (K × P)}
    (hsorted : Ascending Prod.fst (entriesOf (a ++ (s.1, entries) :: b)))
    (hlower : 1 < (a ++ s :: b).length → c.min / 2 < entries.length)
    (hupper : entries.length < c.min * 2) :
    ∃ writes w', Engine.Returns (fun fuel => c.reindex fuel
        [c.put s.1 ⟨lastId none a, firstId b none, entries⟩] (s.2.head?.map Prod.fst) s.1
        (⟨lastId none a, firstId b none, entries⟩ : Segment K P)) w writes w' ∧
      Rechained kinds w w' (segCells V c.tenant c.laneHash none (a ++ s :: b) none ++ ix) c c
        (a ++ (s.1, entries) :: b) writes := by
  have hslots := slotsOf_ascending h.shape.sorted
  have hix := h.indexed
  rw [slotsOf_append, slotsOf_cons, ← List.append_assoc] at hslots hix
  obtain ⟨writes, ix', w', hret, hplan, hix'⟩ := reindex_place h.ok.index hu
    ((put_segment entries h.start).perm List.perm_append_comm) hix hslots s.1
    ⟨lastId none a, firstId b none, entries⟩ (between_first hsorted)
  rw [slotOf_first] at hret
  refine ⟨writes, w', hret, rfl, ?_, ix', ?_, hplan.perm List.perm_append_comm⟩
  · have hsplice (x : LocalId × List (K × P)) : a ++ x :: b = a ++ [x] ++ b := by simp
    have hshape := hsplice s ▸ h.shape
    rw [hsplice] at hsorted ⊢
    refine hshape.splice (by simp) rfl ?_ ?_ hsorted (fun hlen x hx => ?_) fun x hx => ?_
    · rw [← hshape.head]
      cases a <;> rfl
    · rw [← hshape.tail]
      simp [lastId_append, lastId]
    · rw [List.mem_singleton.mp hx]
      exact hlower (by simpa using hlen)
    · rw [List.mem_singleton.mp hx]
      exact hupper
  · rw [slotsOf_append, slotsOf_cons, ← List.append_assoc]
    exact hix'

theorem get_spec {segs : Segs K P} (h : ChainAt kinds c w segs ix) (key : K) :
    ∃ result, Engine.Returns (fun fuel => (c.get fuel key : Engine V (Option P))) w result w ∧
      ∀ payload, result = some payload ↔ (key, payload) ∈ entriesOf segs := by
  obtain ⟨hheld, hixheld⟩ := holds_append.mp h.held
  obtain ⟨a, s, b, rfl, ha, hb, hlocate⟩ := locate_spec h.shape h.indexed hheld hixheld key
  have hs := h.shape.sorted
  rw [entriesOf_append, entriesOf_cons] at hs
  refine ⟨_, hlocate.bind (.of_run rfl), fun payload => ?_⟩
  rw [get_eq_some_iff _ hs.append.2.1.append.1, entriesOf_append, entriesOf_cons]
  constructor
  · intro hmem
    simp [hmem]
  · intro hmem
    rcases List.mem_append.mp hmem with hmem | hmem
    · exact absurd (ha _ hmem) (lt_irrefl _)
    · exact (List.mem_append.mp hmem).resolve_right fun hmem => lt_irrefl _ (hb _ hmem)

end Places

end WaveDb.Index
