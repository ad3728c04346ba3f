import WaveDb.Index.Chain.Remove

namespace WaveDb.Index

open WaveDb.Lib WaveDb.Core

-- A new chain: with an index of the given lane and branch capacity, or the
-- removal log, which has none.
def createChain (V : Type) (tenant laneHash min : Nat) (index : Option (Nat × Nat)) (K P : Type)
    [LaneCodec V (Segment K P)] [LaneCodec V (SparseNode K)] : Engine V (Chain × List (Write V)) :=
  match index with
  | some (indexHash, cap) => Chain.planCreate tenant laneHash indexHash min cap K P
  | none => Chain.planCreateLog tenant laneHash min K P

def chainKinds (laneHash : Nat) (index : Option (Nat × Nat)) : List Nat :=
  laneLower laneHash :: (index.map fun i => laneLower i.1).toList

variable {V K P : Type} [LaneCodec V (Segment K P)] [LaneCodec V (SparseNode K)] [DecidableEq V]

structure Chain.Has (c : Chain) (tenant laneHash min : Nat) (index : Option (Nat × Nat)) :
    Prop where
  tenant_eq : c.tenant = tenant
  laneHash_eq : c.laneHash = laneHash
  min_eq : c.min = min
  index_eq : c.index.map (fun t => (t.laneHash, t.cap)) = index
  index_tenant : ∀ t ∈ c.index, t.tenant = tenant

theorem Chain.Has.ok {c : Chain} {tenant laneHash min : Nat} {index : Option (Nat × Nat)}
    {kinds : List Nat} (h : c.Has tenant laneHash min index) (hmin : 1 ≤ min)
    (hcap : ∀ i ∈ index, 1 ≤ i.2) (hkinds : chainKinds laneHash index ⊆ kinds) :
    ChainOk kinds c := by
  obtain ⟨rfl, rfl, rfl, rfl, ht⟩ := h
  refine ⟨hmin, hkinds List.mem_cons_self, fun t hindex => ⟨ht t hindex, ?_, hkinds ?_⟩⟩
  · have := hcap (t.laneHash, t.cap) (by simp [Option.mem_def.mp hindex])
    omega
  · simp [chainKinds, Option.mem_def.mp hindex]

theorem createChain_spec {tenant laneHash : Nat} (min : Nat) {index : Option (Nat × Nat)}
    {kinds : List Nat} {w : World V} (hu : Unused tenant kinds w)
    (hkinds : chainKinds laneHash index ⊆ kinds) :
    ∃ (c : Chain) (writes : List (Write V)) (w' : World V) (ix : List (Id × V)),
      (createChain V tenant laneHash min index K P).runIn w = (.ok (c, writes), w') ∧
      c.Has tenant laneHash min index ∧ c.tail = c.head ∧ Indexed (K := K) c.index [] ix ∧
      Planned tenant kinds w w' writes [] (segCells V tenant laneHash none
        ([(c.head, [])] : Segs K P) none ++ ix) := by
  have hstart : Planned tenant kinds w w [] [] [] := .refl (fun _ h => absurd h (by simp)) (by simp)
  cases index with
  | none =>
    refine ⟨⟨⟨w.clock 0, laneLower laneHash⟩, _, tenant, laneHash, none, min⟩, _, w.tick, [], rfl,
      ⟨rfl, rfl, rfl, rfl, by simp⟩, rfl, rfl, ?_⟩
    exact hstart.mint _ hu (hkinds List.mem_cons_self)
  | some i =>
    obtain ⟨indexHash, cap⟩ := i
    -- The root of the index is minted first and written last.
    obtain ⟨-, hgiven⟩ := hstart.minted hu
      (hkinds (by simp [chainKinds]) : laneLower indexHash ∈ kinds)
    have hseg := hstart.tick.mint (LaneCodec.toBytes laneHash (⟨none, none, []⟩ : Segment K P)) hu
      (hkinds List.mem_cons_self)
    have hroot := hseg.add (LaneCodec.toBytes indexHash (SparseNode.leaf ([] : List (Slot K))))
      (by simpa using hgiven.ne_future hu 0 (laneLower laneHash)) (hgiven.advance 1)
    refine ⟨⟨⟨w.tick.clock 0, laneLower laneHash⟩, _, tenant, laneHash,
      some ⟨⟨w.clock 0, laneLower indexHash⟩, tenant, indexHash, cap⟩, min⟩, _, w.tick.tick, _, rfl,
      ⟨rfl, rfl, rfl, rfl, by simp⟩, rfl,
      ⟨0, .leaf ⟨w.clock 0, laneLower indexHash⟩ [], rfl, rfl, ⟨trivial, by simp⟩, rfl⟩, ?_⟩
    exact hroot.perm (List.Perm.swap _ _ _)

variable [LinearOrder K]

-- The runs of a chain that has the store to itself, from the handle `c₀` it
-- was created as. Each plan is applied before the next is made. `M` is the
-- map the same insertions and removals make.
inductive ChainRun (V : Type) {K P : Type} [LaneCodec V (Segment K P)]
    [LaneCodec V (SparseNode K)] [DecidableEq V] [LinearOrder K] (tenant laneHash min : Nat)
    (index : Option (Nat × Nat)) (c₀ : Chain) : Chain → Store V → (K → Option P) → Prop
  | create {w w' : World V} {writes : List (Write V)} {s : Store V}
      (hempty : w.store = fun _ => none) (hfresh : Unused tenant (chainKinds laneHash index) w)
      (hplan : (createChain V tenant laneHash min index K P).runIn w = (.ok (c₀, writes), w'))
      (happly : w.store.apply writes = .ok s) :
      ChainRun V tenant laneHash min index c₀ c₀ s fun _ => none
  | insert {w w' : World V} {c c' : Chain} {M : K → Option P} {writes : List (Write V)}
      {s : Store V} (k : K) (p : P) (h : ChainRun V tenant laneHash min index c₀ c w.store M)
      (hfresh : Unused tenant (chainKinds laneHash index) w)
      (hplan : Engine.Returns (fun fuel => c.planInsert fuel k p) w (c', writes) w')
      (happly : w.store.apply writes = .ok s) :
      ChainRun V tenant laneHash min index c₀ c' s (Function.update M k (some p))
  | remove {w w' : World V} {c c' : Chain} {M : K → Option P} {writes : List (Write V)}
      {s : Store V} (k : K) (h : ChainRun V tenant laneHash min index c₀ c w.store M)
      (hfresh : Unused tenant (chainKinds laneHash index) w)
      (hplan : Engine.Returns (fun fuel => c.planRemove fuel k P) w (c', some writes) w')
      (happly : w.store.apply writes = .ok s) :
      ChainRun V tenant laneHash min index c₀ c' s (Function.update M k none)
  | removeAbsent {w w' : World V} {c c' : Chain} {M : K → Option P} (k : K)
      (h : ChainRun V tenant laneHash min index c₀ c w.store M)
      (hfresh : Unused tenant (chainKinds laneHash index) w)
      (hplan : Engine.Returns (fun fuel => c.planRemove fuel k P) w (c', none) w') :
      ChainRun V tenant laneHash min index c₀ c' w.store (Function.update M k none)

-- What a handle stands for: a run of segments, linked both ways, and an index
-- over them. The store holds their cells and nothing else.
structure ChainStands (c : Chain) (s : Store V) (M : K → Option P) (segs : Segs K P)
    (ix : List (Id × V)) : Prop where
  shape : ChainShape c segs
  indexed : Indexed c.index (slotsOf segs) ix
  only : Exactly s (segCells V c.tenant c.laneHash none segs none ++ ix)
  nodup : (addrs (segCells V c.tenant c.laneHash none segs none ++ ix)).Nodup
  entries : ∀ k p, (k, p) ∈ entriesOf segs ↔ M k = some p

section Maps

variable {M : K → Option P} {xs : List (K × P)}

theorem mem_put (h : ∀ k p, (k, p) ∈ xs ↔ M k = some p) (key : K) (payload : P) (k : K) (p : P) :
    (k, p) ∈ below Prod.fst key xs ++ (key, payload) :: above Prod.fst key xs ↔
      Function.update M key (some payload) k = some p := by
  rw [List.mem_append, List.mem_cons, mem_below, mem_above, h]
  rcases lt_trichotomy k key with hlt | rfl | hgt
  · simp [hlt, hlt.ne, hlt.not_gt]
  · simp [eq_comm]
  · simp [hgt, hgt.ne', hgt.not_gt]

theorem mem_drop (h : ∀ k p, (k, p) ∈ xs ↔ M k = some p) (key k : K) (p : P) :
    (k, p) ∈ below Prod.fst key xs ++ above Prod.fst key xs ↔
      Function.update M key none k = some p := by
  rw [List.mem_append, mem_below, mem_above, h]
  rcases lt_trichotomy k key with hlt | rfl | hgt
  · simp [hlt, hlt.ne, hlt.not_gt]
  · simp
  · simp [hgt, hgt.ne', hgt.not_gt]

end Maps

section Steps

variable {tenant laneHash min : Nat} {index : Option (Nat × Nat)} {c₀ c c' : Chain}
  {kinds : List Nat} {w w' : World V} {s : Store V} {M M' : K → Option P} {segs segs' : Segs K P}
  {ix : List (Id × V)} {writes : List (Write V)}

omit [DecidableEq V] in
theorem ChainStands.chainAt (hok : ChainOk kinds c) (h : ChainStands c w.store M segs ix) :
    ChainAt kinds c w segs ix := ⟨hok, h.shape, h.indexed, h.only.1, h.nodup⟩

omit [DecidableEq V] in
theorem ChainStands.rechained (h : ChainStands c w.store M segs ix)
    (hre : Rechained kinds w w' (segCells V c.tenant c.laneHash none segs none ++ ix) c c' segs'
      writes) (hentries : ∀ k p, (k, p) ∈ entriesOf segs' ↔ M' k = some p) :
    ∃ ix', ChainStands c' (w.store.writes writes) M' segs' ix' := by
  obtain ⟨hsame, hshape, ix', hix', hplan⟩ := hre
  refine ⟨ix', hshape, ?_, ?_, ?_, hentries⟩
  · rw [hsame]
    exact hix'
  · rw [hsame]
    exact hplan.replaces.exactly h.only
  · rw [hsame]
    exact hplan.nodup

theorem createChain_stands (hempty : w.store = fun _ => none)
    (hu : Unused tenant (chainKinds laneHash index) w) (hmin : 1 ≤ min)
    (hplan : (createChain V tenant laneHash min index K P).runIn w = (.ok (c, writes), w')) :
    c.Has tenant laneHash min index ∧ w.store.apply writes = .ok (w.store.writes writes) ∧
      ∃ ix, ChainStands (K := K) (P := P) c (w.store.writes writes) (fun _ => none)
        [(c.head, [])] ix := by
  obtain ⟨c', writes', w'', ix, hrun, hhas, htail, hix, hplanned⟩ :=
    createChain_spec (K := K) (P := P) min hu (List.Subset.refl _)
  cases hplan.symm.trans hrun
  have hempty' : Exactly w.store ([] : List (Id × V)) := ⟨fun _ h => absurd h (by simp), by simp [hempty]⟩
  refine ⟨hhas, hplanned.applies, ix, ⟨rfl, by rw [htail]; rfl, by simp [entriesOf, Ascending],
    by simp, ?_⟩, hix, ?_, ?_, by simp [entriesOf]⟩
  · rw [hhas.min_eq]
    simp
    omega
  · rw [hhas.tenant_eq, hhas.laneHash_eq]
    exact hplanned.replaces.exactly hempty'
  · rw [hhas.tenant_eq, hhas.laneHash_eq]
    exact hplanned.nodup

theorem insert_chain_stands (hok : ChainOk kinds c) (h : ChainStands c w.store M segs ix)
    (hu : Unused c.tenant kinds w) (k : K) (p : P) :
    ∃ c' writes w', Engine.Returns (fun fuel => c.planInsert fuel k p) w (c', writes) w' ∧
      w.store.apply writes = .ok (w.store.writes writes) ∧
      c' = { c with head := c'.head, tail := c'.tail } ∧
      ∃ segs' ix', ChainStands c' (w.store.writes writes) (Function.update M k (some p))
        segs' ix' := by
  obtain ⟨c', segs', writes, w', hret, hre, hentries⟩ :=
    planInsert_chain_spec hu (h.chainAt hok) k p
  obtain ⟨ix', hstands⟩ := h.rechained hre fun j q => by rw [hentries, mem_put h.entries]
  obtain ⟨_, -, hplan⟩ := hre.planned
  exact ⟨c', writes, w', hret, hplan.applies, hre.same, segs', ix', hstands⟩

theorem remove_chain_stands (hok : ChainOk kinds c) (h : ChainStands c w.store M segs ix)
    (hu : Unused c.tenant kinds w) (k : K) :
    (M k = none ∧ Engine.Returns (fun fuel => c.planRemove fuel k P) w (c, none) w) ∨
    (M k ≠ none ∧ ∃ c' writes w',
      Engine.Returns (fun fuel => c.planRemove fuel k P) w (c', some writes) w' ∧
      w.store.apply writes = .ok (w.store.writes writes) ∧
      c' = { c with head := c'.head, tail := c'.tail } ∧
      ∃ segs' ix', ChainStands c' (w.store.writes writes) (Function.update M k none)
        segs' ix') := by
  have hmem : k ∈ (entriesOf segs).map Prod.fst ↔ M k ≠ none := by
    rw [Option.ne_none_iff_exists', List.mem_map]
    exact ⟨fun ⟨e, he, hek⟩ => ⟨e.2, (h.entries k e.2).mp (hek ▸ he)⟩,
      fun ⟨p, hp⟩ => ⟨(k, p), (h.entries k p).mpr hp, rfl⟩⟩
  rcases planRemove_chain_spec hu (h.chainAt hok) k with
    ⟨hk, hret⟩ | ⟨hk, c', segs', writes, w', hret, hre, hentries⟩
  · exact .inl ⟨not_not.mp (mt hmem.mpr hk), hret⟩
  · obtain ⟨ix', hstands⟩ := h.rechained hre fun j q => by rw [hentries, mem_drop h.entries]
    obtain ⟨_, -, hplan⟩ := hre.planned
    exact .inr ⟨hmem.mp hk, c', writes, w', hret, hplan.applies, hre.same, segs', ix', hstands⟩

theorem Chain.Has.moved (h : c.Has tenant laneHash min index)
    (hsame : c' = { c with head := c'.head, tail := c'.tail }) :
    c'.Has tenant laneHash min index := by
  rw [hsame]
  exact ⟨h.tenant_eq, h.laneHash_eq, h.min_eq, h.index_eq, h.index_tenant⟩

theorem ChainRun.stands (hmin : 1 ≤ min) (hcap : ∀ i ∈ index, 1 ≤ i.2)
    (h : ChainRun V tenant laneHash min index c₀ c s M) :
    c.Has tenant laneHash min index ∧ c = { c₀ with head := c.head, tail := c.tail } ∧
      ∃ segs ix, ChainStands c s M segs ix := by
  induction h with
  | create hempty hfresh hplan happly =>
    obtain ⟨hhas, happly', ix, hstands⟩ := createChain_stands hempty hfresh hmin hplan
    cases happly.symm.trans happly'
    exact ⟨hhas, rfl, _, ix, hstands⟩
  | insert k p h hfresh hplan happly ih =>
    obtain ⟨hhas, hsame, segs, ix, hstands⟩ := ih
    obtain ⟨c', writes, w', hret, happly', hsame', segs', ix', hstands'⟩ :=
      insert_chain_stands (hhas.ok hmin hcap (List.Subset.refl _)) hstands
        (by rwa [hhas.tenant_eq]) k p
    obtain ⟨heq, -⟩ := hplan.unique hret
    cases heq
    cases happly.symm.trans happly'
    exact ⟨hhas.moved hsame', by rw [hsame', hsame], segs', ix', hstands'⟩
  | remove k h hfresh hplan happly ih =>
    obtain ⟨hhas, hsame, segs, ix, hstands⟩ := ih
    rcases remove_chain_stands (hhas.ok hmin hcap (List.Subset.refl _)) hstands
        (by rwa [hhas.tenant_eq]) k with
      ⟨-, hret⟩ | ⟨-, c', writes, w', hret, happly', hsame', segs', ix', hstands'⟩
    · cases (hplan.unique hret).1
    · cases (hplan.unique hret).1
      cases happly.symm.trans happly'
      exact ⟨hhas.moved hsame', by rw [hsame', hsame], segs', ix', hstands'⟩
  | removeAbsent k h hfresh hplan ih =>
    obtain ⟨hhas, hsame, segs, ix, hstands⟩ := ih
    rcases remove_chain_stands (hhas.ok hmin hcap (List.Subset.refl _)) hstands
        (by rwa [hhas.tenant_eq]) k with
      ⟨hk, hret⟩ | ⟨-, c', writes, w', hret, -⟩
    · cases (hplan.unique hret).1
      rw [Function.update_eq_self_iff.mpr hk.symm]
      exact ⟨hhas, hsame, segs, ix, hstands⟩
    · cases (hplan.unique hret).1

theorem ChainStands.total (h : ChainStands c w.store M segs ix) {t : SparseTree}
    (ht : t ∈ c.index) :
    (t.total K : Engine V Nat).runIn w = (.ok (entriesOf segs).length, w) := by
  have hix := h.indexed
  rw [Option.mem_def.mp ht] at hix
  obtain ⟨n, T, hid, hflat, -, rfl⟩ := hix
  rw [total_spec hid (holds_append.mp h.only.1).2, hflat, sum_slotsOf]

theorem ChainStands.find (h : ChainStands c w.store M segs ix) {t : SparseTree}
    (ht : t ∈ c.index) {slot : Slot K} (hslot : slot ∈ slotsOf segs) :
    Engine.Returns (fun fuel => t.find fuel slot.first) w (some slot) w := by
  have hix := h.indexed
  rw [Option.mem_def.mp ht] at hix
  obtain ⟨n, T, hid, hflat, hroot, rfl⟩ := hix
  have hs := slotsOf_ascending h.shape.sorted
  have hfind := find_spec hid hroot (hflat ▸ hs) (holds_append.mp h.only.1).2 slot.first
  rwa [hflat, covering_self hs hslot] at hfind

-- Every state of every run stands for a chain of its entries under an index that names
-- each segment. The next operation returns.
theorem chain_runs (hmin : 2 ≤ min) (hcap : ∀ i ∈ index, 2 ≤ i.2)
    (h : ChainRun V tenant laneHash min index c₀ c s M) :
    c.index = c₀.index ∧
    (∃ segs ix, ChainStands c s M segs ix ∧
      ∀ t ∈ c.index, ∀ w : World V, w.store = s →
        (t.total K : Engine V Nat).runIn w = (.ok (entriesOf segs).length, w) ∧
        ∀ seg ∈ segs, ∀ slot ∈ slotOf seg,
          Engine.Returns (fun fuel => t.find fuel slot.first) w (some slot) w) ∧
    (∀ w : World V, w.store = s → Unused tenant (chainKinds laneHash index) w → ∀ k p,
      ∃ c' writes w' s', Engine.Returns (fun fuel => c.planInsert fuel k p) w (c', writes) w' ∧
        s.apply writes = .ok s' ∧
        ChainRun V tenant laneHash min index c₀ c' s' (Function.update M k (some p))) ∧
    (∀ w : World V, w.store = s → Unused tenant (chainKinds laneHash index) w → ∀ k,
      ∃ c' result w', Engine.Returns (fun fuel => c.planRemove fuel k P) w (c', result) w' ∧
        (result = none ↔ M k = none) ∧ ∀ writes ∈ result, ∃ s', s.apply writes = .ok s' ∧
          ChainRun V tenant laneHash min index c₀ c' s' (Function.update M k none)) ∧
    ∀ w : World V, w.store = s → ∀ k, Engine.Returns (fun fuel => c.get fuel k) w (M k) w := by
  have hmin' : 1 ≤ min := by omega
  have hcap' : ∀ i ∈ index, 1 ≤ i.2 := fun i hi => (by decide : 1 ≤ 2).trans (hcap i hi)
  obtain ⟨hhas, hsame, segs, ix, hstands⟩ := h.stands hmin' hcap'
  have hok := hhas.ok hmin' hcap' (List.Subset.refl _)
  refine ⟨by rw [hsame], ⟨segs, ix, hstands, fun t ht w hw => ?_⟩, ?_, ?_, ?_⟩
  · subst hw
    exact ⟨hstands.total ht, fun seg hseg slot hslot =>
      hstands.find ht (List.mem_filterMap.mpr ⟨seg, hseg, hslot⟩)⟩
  · rintro w rfl hu k p
    obtain ⟨c', writes, w', hret, happly, -⟩ :=
      insert_chain_stands hok hstands (by rwa [hhas.tenant_eq]) k p
    exact ⟨c', writes, w', _, hret, happly, .insert k p h hu hret happly⟩
  · rintro w rfl hu k
    rcases remove_chain_stands hok hstands (by rwa [hhas.tenant_eq]) k with
      ⟨hk, hret⟩ | ⟨hk, c', writes, w', hret, happly, -⟩
    · exact ⟨c, none, w, hret, by simp [hk], by simp⟩
    · refine ⟨c', some writes, w', hret, by simp [hk], fun b hb => ?_⟩
      cases hb
      exact ⟨_, happly, .remove k h hu hret happly⟩
  · rintro w rfl k
    obtain ⟨result, hret, hresult⟩ := get_spec (hstands.chainAt hok) k
    have heq : result = M k := Option.ext fun p => by rw [hresult, hstands.entries]
    rwa [heq] at hret

end Steps

instance laneCodecSegment {K P : Type} :
    LaneCodec (Segment K P ⊕ SparseNode K) (Segment K P) where
  toBytes _ seg := .inl seg
  fromBytes _ v := v.elim .ok fun _ => .error .wire
  fromBytes_toBytes _ _ := rfl

instance laneCodecSparse {K P : Type} : LaneCodec (Segment K P ⊕ SparseNode K) (SparseNode K) where
  toBytes _ node := .inr node
  fromBytes _ v := v.elim (fun _ => .error .wire) .ok
  fromBytes_toBytes _ _ := rfl

theorem chain_runs_sample :
    ∃ (c₀ c : Chain) (s : Store (Segment Nat Nat ⊕ SparseNode Nat)),
      ChainRun (K := Nat) (P := Nat) (Segment Nat Nat ⊕ SparseNode Nat) 7 1 2 (some (2, 2)) c₀ c s
        (Function.update (fun _ => none) 5 (some 8)) ∧
      ∃ segs ix, ChainStands c s (Function.update (fun _ => none) 5 (some 8)) segs ix := by
  let w : World (Segment Nat Nat ⊕ SparseNode Nat) := ⟨fun _ => none, fun n => n, 0⟩
  have hu : Unused 7 (chainKinds 1 (some (2, 2))) w :=
    ⟨fun a b h => h, fun n lower _ => rfl⟩
  obtain ⟨c₀, writes, w', ix, hrun, -, -, -, hplan⟩ :=
    createChain_spec (K := Nat) (P := Nat) 2 hu (List.Subset.refl _)
  have hcreate : ChainRun (K := Nat) (P := Nat) (Segment Nat Nat ⊕ SparseNode Nat) 7 1 2
      (some (2, 2)) c₀ c₀ _ fun _ => none := .create rfl hu hrun hplan.applies
  obtain ⟨c, writes', w'', s, -, -, hinsert⟩ :=
    (chain_runs (by decide) (by simp) hcreate).2.2.1 _ rfl (hplan.unused hu) 5 8
  obtain ⟨segs, ix', hstands, -⟩ := (chain_runs (by decide) (by simp) hinsert).2.1
  exact ⟨c₀, c, s, hinsert, segs, ix', hstands⟩

end WaveDb.Index
