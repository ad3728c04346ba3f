import WaveDb.Index.Sparse.Spec

-- The sparse index as a sorted map with counts, along whole runs.
namespace WaveDb.Index

open WaveDb.Lib WaveDb.Core

section Offsets

variable {K : Type} {d : Nat}

def positions (slots : List (Slot K)) : List (Slot K × Nat) :=
  slots.flatMap fun s => (List.range s.count).map (Prod.mk s)

theorem positions_cons (s : Slot K) (slots : List (Slot K)) :
    positions (s :: slots) = (List.range s.count).map (Prod.mk s) ++ positions slots := rfl

theorem positions_append (a b : List (Slot K)) : positions (a ++ b) = positions a ++ positions b :=
  List.flatMap_append

theorem length_positions (slots : List (Slot K)) :
    (positions slots).length = (slots.map Slot.count).sum := by
  simp [positions, List.length_flatMap]

theorem containing_slots (slots : List (Slot K)) {seen offset : Nat} (h : seen ≤ offset) :
    ((SparseNode.containing offset seen (slots.map Slot.count)).bind fun r =>
      (slots[r.1]?).map fun slot => (slot, r.2)) = (positions slots)[offset - seen]? := by
  induction slots generalizing seen with
  | nil => rfl
  | cons s slots ih =>
    rw [List.map_cons, SparseNode.containing, positions_cons]
    by_cases hin : offset < seen + s.count
    · rw [if_pos hin, List.getElem?_append_left (by simp; omega), List.getElem?_map,
        List.getElem?_range (by omega)]
      rfl
    · rw [if_neg hin, List.getElem?_append_right (by simp; omega), List.length_map,
        List.length_range, Nat.sub_sub, ← ih (by omega)]
      cases SparseNode.containing offset (seen + s.count) (slots.map Slot.count) <;> rfl

theorem containing_kids {kids : List (RunTree LocalId (Slot K) d)} (hfull : ∀ c ∈ kids, c.Full)
    {seen offset : Nat} (h : seen ≤ offset) :
    (SparseNode.containing offset seen
        ((branches (kids.map RunTree.label)).map Branch.count) = none ∧
      (positions (kids.flatMap RunTree.flat))[offset - seen]? = none) ∨
    ∃ i within b, ∃ c ∈ kids,
      SparseNode.containing offset seen ((branches (kids.map RunTree.label)).map Branch.count) =
        some (i, within) ∧ (branches (kids.map RunTree.label))[i]? = some b ∧ b.node = c.id ∧
      (positions (kids.flatMap RunTree.flat))[offset - seen]? = (positions c.flat)[within]? := by
  induction kids generalizing seen with
  | nil => exact .inl ⟨rfl, rfl⟩
  | cons c kids ih =>
    obtain ⟨b, hb⟩ := exists_branch c.label (hfull c List.mem_cons_self).flat_ne_nil
    have hbranch : b.node = c.id ∧ b.count = (positions c.flat).length := by
      rw [length_positions]
      obtain ⟨slot, -, rfl⟩ := Option.map_eq_some_iff.mp hb
      exact ⟨rfl, rfl⟩
    have hcons : branches ((c :: kids).map RunTree.label) =
        b :: branches (kids.map RunTree.label) := by simp [branches, hb]
    rw [hcons, List.map_cons, SparseNode.containing, List.flatMap_cons, positions_append,
      hbranch.2]
    by_cases hin : offset < seen + (positions c.flat).length
    · rw [if_pos hin, List.getElem?_append_left (by omega)]
      exact .inr ⟨0, offset - seen, b, c, List.mem_cons_self, rfl, rfl, hbranch.1, rfl⟩
    · rw [if_neg hin, List.getElem?_append_right (by omega), Nat.sub_sub]
      rcases ih (fun x hx => hfull x (List.mem_cons_of_mem _ hx)) (Nat.not_lt.mp hin) with
        ⟨hnone, hpos⟩ | ⟨i, within, b', c', hc', hsome, hget, hnode, hpos⟩
      · exact .inl ⟨by rw [hnone]; rfl, hpos⟩
      · exact .inr ⟨i + 1, within, b', c', List.mem_cons_of_mem _ hc', by rw [hsome]; rfl, hget,
          hnode, hpos⟩

variable {V : Type} [LaneCodec V (SparseNode K)] [DecidableEq V] {t : SparseTree} {w : World V}

theorem findOffsetFrom_eq : {d : Nat} → (sub : RunTree LocalId (Slot K) d) → sub.KidsFull →
    Holds w.store (sub.cells (sparseLayout V t)) → (fuel offset : Nat) → d < fuel →
    (t.findOffsetFrom fuel sub.id offset).runIn w = (.ok (positions sub.flat)[offset]?, w)
  | _, _, _, _, 0, _, hfuel => absurd hfuel (Nat.not_lt_zero _)
  | 0, .leaf id slots, _, hheld, fuel + 1, offset, _ => by
      rw [SparseTree.findOffsetFrom, Engine.runIn_bind_ok (load_sparse hheld)]
      have hstep := containing_slots slots (Nat.zero_le offset)
      rw [Nat.sub_zero] at hstep
      rw [RunTree.flat_leaf, ← hstep]
      simp only [sparseNode, SparseNode.stepToOffset]
      cases SparseNode.containing offset 0 (slots.map Slot.count) with
      | none => rfl
      | some r =>
        simp only [Option.bind_eq_bind, Option.bind_some, Option.pure_def]
        cases slots[r.1]? <;> rfl
  | d + 1, .node id kids, hfull, hheld, fuel + 1, offset, hfuel => by
      rw [SparseTree.findOffsetFrom, Engine.runIn_bind_ok (load_sparse hheld)]
      simp only [sparseNode, SparseNode.stepToOffset]
      rw [RunTree.flat_node]
      rcases containing_kids hfull (Nat.zero_le offset) with
        ⟨hnone, hpos⟩ | ⟨i, within, b, c, hc, hsome, hget, hnode, hpos⟩
      · rw [Nat.sub_zero] at hpos
        rw [hnone, hpos]
        rfl
      · rw [Nat.sub_zero] at hpos
        have hkids := ((RunTree.full_iff c).mp (hfull c hc)).2
        have hcells : Holds w.store (c.cells (sparseLayout V t)) := fun cell hcell =>
          hheld cell (List.mem_cons_of_mem _ (List.mem_flatMap.mpr ⟨c, hc, hcell⟩))
        rw [hsome, hpos]
        simp only [Option.bind_eq_bind, Option.bind_some, Option.pure_def, hget, hnode]
        exact findOffsetFrom_eq c hkids hcells fuel within (by omega)

theorem findOffset_spec {n : Nat} {T : RunTree LocalId (Slot K) n} (hid : T.id = t.root)
    (hfull : T.KidsFull) (hheld : Holds w.store (T.cells (sparseLayout V t))) (offset : Nat) :
    Engine.Returns (fun fuel => t.findOffset fuel offset) w (positions T.flat)[offset]? w :=
  ⟨n, fun fuel hfuel => by
    change (t.findOffsetFrom fuel t.root offset).runIn w = _
    rw [← hid]
    exact findOffsetFrom_eq T hfull hheld fuel offset hfuel⟩

end Offsets

section Runs

variable {V K : Type} [LaneCodec V (SparseNode K)] [DecidableEq V] [LinearOrder K]

-- The runs of an index that has the store to itself. Each plan is applied
-- before the next is made. `M` is the map the same changes make.
inductive SparseRun (V : Type) {K : Type} [LaneCodec V (SparseNode K)] [DecidableEq V]
    [LinearOrder K] (t : SparseTree) : Store V → (K → Option (LocalId × Nat)) → Prop
  | create {w w' : World V} {write : Write V} {s : Store V} (hempty : w.store = fun _ => none)
      (hplan : (SparseTree.planCreate (K := K) t.tenant t.laneHash t.cap).runIn w =
        (.ok (t, write), w'))
      (happly : w.store.apply [write] = .ok s) : SparseRun V t s fun _ => none
  | upsert {w w' : World V} {M : K → Option (LocalId × Nat)} {writes : List (Write V)}
      {s : Store V} (slot : Slot K) (h : SparseRun V t w.store M)
      (hfresh : Unused t.tenant [laneLower t.laneHash] w)
      (hplan : Engine.Returns (fun fuel => t.planUpsert fuel slot) w writes w')
      (happly : w.store.apply writes = .ok s) :
      SparseRun V t s (Function.update M slot.first (some (slot.seg, slot.count)))
  | remove {w w' : World V} {M : K → Option (LocalId × Nat)} {writes : List (Write V)}
      {s : Store V} (first : K) (h : SparseRun V t w.store M)
      (hfresh : Unused t.tenant [laneLower t.laneHash] w)
      (hplan : Engine.Returns (fun fuel => t.planRemove fuel first) w writes w')
      (happly : w.store.apply writes = .ok s) : SparseRun V t s (Function.update M first none)

-- What the index stands for: a tree over the entries of the map in their order.
-- The store holds its nodes and nothing else.
structure SparseStands (t : SparseTree) (s : Store V) (M : K → Option (LocalId × Nat))
    {n : Nat} (T : RunTree LocalId (Slot K) n) : Prop where
  root : T.id = t.root
  full : RootFull T
  sorted : Ascending Slot.first T.flat
  only : Exactly s (T.cells (sparseLayout V t))
  nodup : (addrs (T.cells (sparseLayout V t))).Nodup
  entries : ∀ slot, slot ∈ T.flat ↔ M slot.first = some (slot.seg, slot.count)

def Greatest (M : K → Option (LocalId × Nat)) (key : K) : Option (Slot K) → Prop
  | none => ∀ first, M first ≠ none → key < first
  | some slot => M slot.first = some (slot.seg, slot.count) ∧ slot.first ≤ key ∧
      ∀ first, M first ≠ none → first ≤ key → first ≤ slot.first

section Steps

variable {t : SparseTree} {w : World V} {s : Store V} {M : K → Option (LocalId × Nat)} {n : Nat}
  {T : RunTree LocalId (Slot K) n}

omit [DecidableEq V] in
theorem SparseStands.exists_slot (h : SparseStands t s M T) {first : K} (hfirst : M first ≠ none) :
    ∃ slot ∈ T.flat, slot.first = first := by
  obtain ⟨⟨seg, count⟩, hM⟩ := Option.ne_none_iff_exists'.mp hfirst
  exact ⟨⟨first, seg, count⟩, (h.entries _).mpr hM, rfl⟩

omit [DecidableEq V] in
theorem SparseStands.greatest (h : SparseStands t s M T) (key : K) :
    Greatest M key (covering T.flat key) := by
  rcases exists_parts h.sorted key with hparts | ⟨slot, rfl, hparts⟩
  · -- no entry is filed under the key itself
    have hlow : ∀ r ∈ below Slot.first key T.flat, r.first ≤ key := fun r hr =>
      (mem_below.mp hr).2.le
    have hcovering : covering T.flat key = (below Slot.first key T.flat).getLast? := by
      conv_lhs => rw [hparts]
      rw [covering_append_left fun r hr => (mem_above.mp hr).2, covering,
        List.takeWhile_eq_self_iff.mpr fun r hr => by simpa using hlow r hr]
    rw [hcovering]
    have hcase : ∀ first, M first ≠ none → first < key → ∃ r ∈ below Slot.first key T.flat,
        r.first = first := by
      intro first hfirst hlt
      obtain ⟨r, hr, rfl⟩ := h.exists_slot hfirst
      exact ⟨r, mem_below.mpr ⟨hr, hlt⟩, rfl⟩
    have hne : ∀ first, M first ≠ none → first ≠ key := by
      rintro first hfirst rfl
      obtain ⟨r, hr, hrfirst⟩ := h.exists_slot hfirst
      rw [hparts, List.mem_append, mem_below, mem_above] at hr
      rcases hr with ⟨-, hr⟩ | ⟨-, hr⟩ <;> exact hr.ne (by simp [hrfirst])
    rcases List.eq_nil_or_concat (below Slot.first key T.flat) with hnil | ⟨rest, last, hlast⟩
    · rw [hnil]
      intro first hfirst
      refine lt_of_le_of_ne (not_lt.mp fun hlt => ?_) (hne first hfirst).symm
      obtain ⟨r, hr, -⟩ := hcase first hfirst hlt
      rw [hnil] at hr
      exact List.not_mem_nil hr
    · have hmem : last ∈ below Slot.first key T.flat := by simp [hlast]
      rw [hlast, List.concat_eq_append, List.getLast?_concat]
      refine ⟨(h.entries last).mp (mem_below.mp hmem).1, hlow last hmem, fun first hfirst hle => ?_⟩
      obtain ⟨r, hr, rfl⟩ := hcase first hfirst (lt_of_le_of_ne hle (hne first hfirst))
      have hsorted : Ascending Slot.first (rest ++ [last]) := by
        rw [← List.concat_eq_append, ← hlast]
        exact h.sorted.sublist List.filter_sublist
      rw [hlast, List.concat_eq_append, List.mem_append, List.mem_singleton] at hr
      rcases hr with hr | rfl
      · exact (hsorted.append.2.2 r hr last (List.mem_singleton_self _)).le
      · exact le_rfl
  · have hmem : slot ∈ T.flat := by
      rw [hparts]
      simp
    rw [covering_self h.sorted hmem]
    exact ⟨(h.entries slot).mp hmem, le_rfl, fun first _ hle => hle⟩

omit [DecidableEq V] in
theorem SparseStands.planned {n' : Nat} {T' : RunTree LocalId (Slot K) n'} {w' : World V}
    {writes : List (Write V)} {M' : K → Option (LocalId × Nat)} (h : SparseStands t w.store M T)
    (hid : T'.id = t.root) (hfull : RootFull T') (hsorted : Ascending Slot.first T'.flat)
    (hplan : Planned t.tenant [laneLower t.laneHash] w w' writes (T.cells (sparseLayout V t))
      (T'.cells (sparseLayout V t)))
    (hentries : ∀ slot, slot ∈ T'.flat ↔ M' slot.first = some (slot.seg, slot.count)) :
    SparseStands t (w.store.writes writes) M' T' :=
  ⟨hid, hfull, hsorted, hplan.replaces.exactly h.only, hplan.nodup, hentries⟩

theorem upsert_sparse_stands (hcap : 1 ≤ t.cap) (h : SparseStands t w.store M T)
    (hu : Unused t.tenant [laneLower t.laneHash] w) (slot : Slot K) :
    ∃ writes w', Engine.Returns (fun fuel => t.planUpsert fuel slot) w writes w' ∧
      w.store.apply writes = .ok (w.store.writes writes) ∧
      ∃ (n' : Nat) (T' : RunTree LocalId (Slot K) n'), SparseStands t (w.store.writes writes)
        (Function.update M slot.first (some (slot.seg, slot.count))) T' := by
  obtain ⟨n', T', writes, w', hret, hid, hflat, hfull, hplan⟩ :=
    planUpsert_spec hcap hu (List.mem_singleton_self _) h.root h.full h.sorted h.only.1 h.nodup slot
  refine ⟨writes, w', hret, hplan.applies, n', T', h.planned hid hfull ?_ hplan fun r => ?_⟩
  · rw [hflat]
    exact ascending_put h.sorted slot
  · rw [hflat]
    refine mem_putKey.trans ?_
    rw [h.entries]
    by_cases hr : r.first = slot.first
    · obtain ⟨first, seg, count⟩ := r
      obtain rfl : first = slot.first := hr
      rw [Function.update_self]
      cases slot
      simp [eq_comm]
    · have hne : r ≠ slot := fun heq => hr (by rw [heq])
      simp [Function.update_of_ne hr, hne, hr]

theorem remove_sparse_stands (hcap : 1 ≤ t.cap) (h : SparseStands t w.store M T)
    (hu : Unused t.tenant [laneLower t.laneHash] w) (first : K) :
    ∃ writes w', Engine.Returns (fun fuel => t.planRemove fuel first) w writes w' ∧
      w.store.apply writes = .ok (w.store.writes writes) ∧
      ∃ (n' : Nat) (T' : RunTree LocalId (Slot K) n'),
        SparseStands t (w.store.writes writes) (Function.update M first none) T' := by
  obtain ⟨n', T', writes, w', hret, hid, hflat, hfull, hplan⟩ :=
    planRemove_sparse_spec hcap hu (List.mem_singleton_self _) h.root h.full h.sorted h.only.1
      h.nodup first
  refine ⟨writes, w', hret, hplan.applies, n', T', h.planned hid hfull ?_ hplan fun r => ?_⟩
  · rw [hflat]
    exact ascending_drop h.sorted first
  · rw [hflat]
    refine mem_dropKey.trans ?_
    rw [h.entries]
    by_cases hr : r.first = first
    · simp [hr]
    · simp [Function.update_of_ne hr, hr]

theorem create_sparse_stands {w' : World V} {write : Write V} (hempty : w.store = fun _ => none)
    (hplan : (SparseTree.planCreate (K := K) t.tenant t.laneHash t.cap).runIn w =
      (.ok (t, write), w')) :
    w.store.apply [write] = .ok (w.store.writes [write]) ∧
      SparseStands t (w.store.writes [write]) (fun _ => none)
        (RunTree.leaf t.root ([] : List (Slot K))) := by
  rw [SparseTree.planCreate, Engine.runIn_bind_ok (runIn_mintLaneId t.laneHash w)] at hplan
  obtain ⟨hroot, hwrite⟩ : (⟨⟨w.clock 0, laneLower t.laneHash⟩, t.tenant, t.laneHash, t.cap⟩ :
      SparseTree) = t ∧ write = t.put t.root (SparseNode.leaf ([] : List (Slot K))) := by
    simp only [Engine.runIn_pure, Prod.mk.injEq, Outcome.ok.injEq] at hplan
    obtain ⟨⟨ht, hwrite⟩, -⟩ := hplan
    refine ⟨ht, ?_⟩
    rw [← hwrite, ht]
    exact congrArg (fun root => t.put root _) (congrArg SparseTree.root ht)
  subst hwrite
  refine ⟨rfl, rfl, ⟨trivial, fun h => absurd h (Nat.lt_irrefl 0)⟩, List.Pairwise.nil, ⟨?_, ?_⟩,
    by simp [RunTree.cells], by simp⟩
  · intro cell hcell
    rw [List.mem_singleton.mp hcell]
    exact Function.update_self _ _ _
  · intro i hi
    have hne : i ≠ t.root.toId t.tenant := by
      rintro rfl
      exact hi (List.mem_singleton_self _)
    rw [Store.writes_cons, Store.writes_nil, SparseTree.put, Store.write_put,
      Function.update_of_ne hne, hempty]

theorem SparseRun.stands (hcap : 1 ≤ t.cap) (h : SparseRun V t s M) :
    ∃ (n : Nat) (T : RunTree LocalId (Slot K) n), SparseStands t s M T := by
  induction h with
  | create hempty hplan happly =>
    obtain ⟨happly', hstands⟩ := create_sparse_stands hempty hplan
    cases happly.symm.trans happly'
    exact ⟨0, _, hstands⟩
  | upsert slot h hfresh hplan happly ih =>
    obtain ⟨n, T, hT⟩ := ih
    obtain ⟨writes, w', hret, happly', hstands⟩ := upsert_sparse_stands hcap hT hfresh slot
    obtain ⟨rfl, -⟩ := hplan.unique hret
    cases happly.symm.trans happly'
    exact hstands
  | remove first h hfresh hplan happly ih =>
    obtain ⟨n, T, hT⟩ := ih
    obtain ⟨writes, w', hret, happly', hstands⟩ := remove_sparse_stands hcap hT hfresh first
    obtain ⟨rfl, -⟩ := hplan.unique hret
    cases happly.symm.trans happly'
    exact hstands

-- Every state of every run is the map: reads answer from it, the store holds the nodes
-- and nothing else, and the next change returns.
theorem sparse_runs (hcap : 2 ≤ t.cap) (h : SparseRun V t s M) :
    ∃ slots : List (Slot K), Ascending Slot.first slots ∧
      (∀ slot, slot ∈ slots ↔ M slot.first = some (slot.seg, slot.count)) ∧
      (∃ (n : Nat) (T : RunTree LocalId (Slot K) n), T.id = t.root ∧ T.flat = slots ∧
        Exactly s (T.cells (sparseLayout V t))) ∧
      (∀ w : World V, w.store = s →
        (∀ key, ∃ found, Engine.Returns (fun fuel => t.find fuel key) w found w ∧
          Greatest M key found) ∧
        (∀ offset, Engine.Returns (fun fuel => t.findOffset fuel offset) w
          (positions slots)[offset]? w) ∧
        (t.total K : Engine V Nat).runIn w = (.ok (slots.map Slot.count).sum, w)) ∧
      (∀ offset, (positions slots)[offset]? = none ↔ (slots.map Slot.count).sum ≤ offset) ∧
      ∀ w : World V, w.store = s → Unused t.tenant [laneLower t.laneHash] w →
        (∀ slot, ∃ writes w' s', Engine.Returns (fun fuel => t.planUpsert fuel slot) w writes w' ∧
          s.apply writes = .ok s' ∧
          SparseRun V t s' (Function.update M slot.first (some (slot.seg, slot.count)))) ∧
        ∀ first, ∃ writes w' s', Engine.Returns (fun fuel => t.planRemove fuel first) w writes w' ∧
          s.apply writes = .ok s' ∧ SparseRun V t s' (Function.update M first none) := by
  have hcap' : 1 ≤ t.cap := by omega
  obtain ⟨n, T, hT⟩ := h.stands hcap'
  refine ⟨T.flat, hT.sorted, hT.entries, ⟨n, T, hT.root, rfl, hT.only⟩, ?_, fun offset => ?_, ?_⟩
  · rintro w rfl
    exact ⟨fun key => ⟨_, find_spec hT.root hT.full hT.sorted hT.only.1 key, hT.greatest key⟩,
      findOffset_spec hT.root hT.full.1 hT.only.1, total_spec hT.root hT.only.1⟩
  · rw [List.getElem?_eq_none_iff, length_positions]
  · rintro w rfl hu
    constructor
    · intro slot
      obtain ⟨writes, w', hret, happly, -⟩ := upsert_sparse_stands hcap' hT hu slot
      exact ⟨writes, w', _, hret, happly, .upsert slot h hu hret happly⟩
    · intro first
      obtain ⟨writes, w', hret, happly, -⟩ := remove_sparse_stands hcap' hT hu first
      exact ⟨writes, w', _, hret, happly, .remove first h hu hret happly⟩

end Steps

end Runs

instance laneCodecSelf {K : Type} : LaneCodec (SparseNode K) (SparseNode K) :=
  ⟨fun _ node => node, fun _ node => .ok node, fun _ _ => rfl⟩

def sampleSparse : SparseTree := ⟨⟨0, laneLower 3⟩, 7, 3, 2⟩

def sampleSparseStore : Store (SparseNode Nat) :=
  Function.update (fun _ => none) (⟨0, 7, laneLower 3⟩ : Core.Id) (some (.leaf []))

theorem sparse_runs_sample :
    ∃ (s : Store (SparseNode Nat)) (M : Nat → Option (LocalId × Nat)),
      SparseRun (SparseNode Nat) sampleSparse s M ∧ M 5 = some (⟨9, 1⟩, 4) ∧
      ∃ slots : List (Slot Nat), Ascending Slot.first slots ∧
        ∀ slot, slot ∈ slots ↔ M slot.first = some (slot.seg, slot.count) := by
  have hcreate : SparseRun (K := Nat) (SparseNode Nat) sampleSparse sampleSparseStore
    fun _ => none := .create (w := ⟨fun _ => none, fun n => n, 0⟩) rfl rfl rfl
  have hfresh : Unused 7 [laneLower 3] ⟨sampleSparseStore, fun n => n + 1, 0⟩ := by
    refine ⟨fun a b h => by simpa using h, fun n lower _ => ?_⟩
    have hne : (⟨n + 1, 7, lower⟩ : Core.Id) ≠ ⟨0, 7, laneLower 3⟩ := fun h =>
      Nat.succ_ne_zero n (congrArg Core.Id.key h)
    change sampleSparseStore ⟨n + 1, 7, lower⟩ = none
    rw [sampleSparseStore, Function.update_of_ne hne]
  obtain ⟨-, -, -, -, -, -, hnext⟩ := sparse_runs (by decide) hcreate
  obtain ⟨writes, w', s, -, -, hrun⟩ := (hnext _ rfl hfresh).1 ⟨5, ⟨9, 1⟩, 4⟩
  obtain ⟨slots, hsorted, hentries, -⟩ := sparse_runs (by decide) hrun
  exact ⟨s, _, hrun, Function.update_self _ _ _, slots, hsorted, hentries⟩

end WaveDb.Index
