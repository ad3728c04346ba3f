import WaveDb.Index.BpTree.Remove

namespace WaveDb.Index

open WaveDb.Lib WaveDb.Core

variable {V K : Type} [NodeCodec V K] [DecidableEq V] [LinearOrder K]

section Lookup

variable {t : BpTree} {w : World V}

omit [DecidableEq V] in
theorem containsFrom_eq (target : K) (fuel : Nat) (node : LocalId) (path : List (PathFrame K)) :
    (t.containsFrom target fuel node : Engine V Bool) =
      t.descend target fuel node path >>= fun r => pure (binarySearch r.1 target).isOk := by
  induction fuel generalizing node path with
  | zero => rfl
  | succ fuel ih =>
    rw [BpTree.containsFrom, BpTree.descend, bind_assoc]
    congr 1
    funext body
    cases body with
    | leaf keys => rfl
    | internal leftmost entries => exact ih _ _

theorem contains_spec {n : Nat} {T : SepTree LocalId K n} (hT : Shape t T) (target : K)
    (hheld : Holds w.store (T.cells (layout V t.tenant))) :
    Engine.Returns (fun fuel => t.contains fuel target) w (decide (target ∈ T.keys)) w := by
  obtain ⟨id, keys, a, b, q, rfl, haround, ha, hb, hkeys, hrun⟩ :=
    descend_root hT.root hT.sorted target hheld
  have hloop : (fun fuel => (t.contains fuel target : Engine V Bool)) = fun fuel =>
      t.descend target fuel t.root [] >>= fun r => pure (binarySearch r.1 target).isOk :=
    funext fun fuel => containsFrom_eq target fuel t.root []
  rw [hloop, keys_plug_leaf]
  refine hrun.bind (.of_run ?_)
  rcases hkeys with rfl | rfl
  · simp [binarySearch_found ha, Except.isOk, Except.toBool]
  · have hmem : target ∉ SepTree.itemKeys q.pre ++ (a ++ b) ++ SepTree.itemKeys q.post := by
      simp only [List.mem_append, not_or]
      exact ⟨⟨fun h => haround.ne (.inl h) rfl, fun h => (ha _ h).ne rfl, fun h => (hb _ h).ne rfl⟩,
        fun h => haround.ne (.inr h) rfl⟩
    rw [decide_eq_false hmem]
    simp [binarySearch_missing ha hb, Except.isOk, Except.toBool]

end Lookup

-- The runs of a tree that has the store to itself, each plan applied before the next is
-- made. `S` collects the keys.
inductive Run (V : Type) [NodeCodec V K] [DecidableEq V] (tenant leafCap internalCap : Nat) :
    BpTree → Store V → Set K → Prop
  | create {w w' : World V} {t : BpTree} {write : Write V} {s : Store V}
      (hempty : w.store = fun _ => none)
      (hplan : (BpTree.planCreate (K := K) tenant leafCap internalCap).runIn w =
        (.ok (t, write), w'))
      (happly : w.store.apply [write] = .ok s) : Run V tenant leafCap internalCap t s ∅
  | insert {w w' : World V} {t t' : BpTree} {S : Set K} {batch : List (Write V)} {s : Store V}
      (k : K) (h : Run V tenant leafCap internalCap t w.store S)
      (hfresh : Unused tenant [nodeLower] w)
      (hplan : Engine.Returns (fun fuel => t.planInsert fuel k) w (t', batch) w')
      (happly : w.store.apply batch = .ok s) :
      Run V tenant leafCap internalCap t' s (insert k S)
  | remove {w w' : World V} {t t' : BpTree} {S : Set K} {batch : List (Write V)} {s : Store V}
      (k : K) (h : Run V tenant leafCap internalCap t w.store S)
      (hplan : Engine.Returns (fun fuel => t.planRemove fuel k) w (t', some batch) w')
      (happly : w.store.apply batch = .ok s) :
      Run V tenant leafCap internalCap t' s (S \ {k})
  | removeAbsent {w w' : World V} {t t' : BpTree} {S : Set K} (k : K)
      (h : Run V tenant leafCap internalCap t w.store S)
      (hplan : Engine.Returns (fun fuel => t.planRemove fuel k) w (t', none) w') :
      Run V tenant leafCap internalCap t' w.store (S \ {k})

-- What a handle stands for. The type of the tree puts all leaves at one
-- depth. `Shape` bounds every node and orders keys and separators together.
structure Stands (t : BpTree) (s : Store V) (S : Set K) {n : Nat} (T : SepTree LocalId K n) :
    Prop where
  shape : Shape t T
  ascending : T.keys.Pairwise (· < ·)
  only : Exactly s (T.cells (layout V t.tenant))
  nodup : (addrs (T.cells (layout V t.tenant))).Nodup
  mem_keys : ∀ k, k ∈ T.keys ↔ k ∈ S

section Steps

variable {tenant leafCap internalCap : Nat} {t t' : BpTree} {w w' : World V} {S : Set K}
  {s : Store V}

omit [DecidableEq V] in
theorem Stands.planned {n n' : Nat} {T : SepTree LocalId K n} {T' : SepTree LocalId K n'}
    {batch : List (Write V)} {S' : Set K} {id : LocalId} (h : Stands t w.store S T)
    (hplan : Planned t.tenant [nodeLower] w w' batch (T.cells (layout V t.tenant))
      (T'.cells (layout V t.tenant)))
    (hshape : Shape { t with root := id } T') (hkeys : ∀ k, k ∈ T'.keys ↔ k ∈ S') :
    Stands { t with root := id } (w.store.writes batch) S' T' :=
  ⟨hshape, SepTree.itemKeys_flat T' ▸ SepTree.itemKeys_pairwise hshape.sorted,
    hplan.replaces.exactly h.only, hplan.nodup, hkeys⟩

theorem create_stands {write : Write V} (hempty : w.store = fun _ => none)
    (hplan : (BpTree.planCreate (K := K) tenant leafCap internalCap).runIn w =
      (.ok (t, write), w')) :
    (t.tenant = tenant ∧ t.leafCap = leafCap ∧ t.internalCap = internalCap) ∧
      w.store.apply [write] = .ok (w.store.write write) ∧
      Stands (K := K) t (w.store.write write) ∅ (.leaf t.root []) := by
  rw [BpTree.planCreate, Engine.runIn_bind_ok (runIn_mintNodeId w)] at hplan
  cases hplan
  refine ⟨⟨rfl, rfl, rfl⟩, rfl, ⟨rfl, by simp, ⟨Nat.zero_le _, fun h => absurd h (Nat.lt_irrefl 0),
    trivial⟩⟩, by simp, ⟨?_, fun i hi => ?_⟩, by simp, by simp⟩
  · intro c hc
    rw [List.mem_singleton.mp hc]
    exact Function.update_self _ _ _
  · have hne : i ≠ (⟨w.clock 0, nodeLower⟩ : LocalId).toId tenant := by
      rintro rfl
      exact hi (List.mem_singleton_self _)
    rw [BpTree.put, Store.write_put, Function.update_of_ne hne, hempty]

theorem insert_stands (hleaf : 4 ≤ t.leafCap) (hcap : 4 ≤ t.internalCap) {n : Nat}
    {T : SepTree LocalId K n} (h : Stands t w.store S T) (hfresh : Unused t.tenant [nodeLower] w)
    (k : K) : ∃ (n' : Nat) (T' : SepTree LocalId K n') (batch : List (Write V)) (w' : World V),
      Engine.Returns (fun fuel => t.planInsert fuel k) w ({ t with root := T'.id }, batch) w' ∧
      w.store.apply batch = .ok (w.store.writes batch) ∧
      Stands { t with root := T'.id } (w.store.writes batch) (insert k S) T' := by
  obtain ⟨n', T', batch, w', hrun, hplan, hshape, hkeys⟩ :=
    planInsert_spec hleaf hcap h.shape k h.only.1 h.nodup hfresh (List.mem_singleton_self _)
  refine ⟨n', T', batch, w', hrun, hplan.applies, h.planned hplan hshape fun j => ?_⟩
  rw [hkeys, h.mem_keys, Set.mem_insert_iff]

theorem remove_stands (hleaf : 4 ≤ t.leafCap) (hcap : 4 ≤ t.internalCap) {n : Nat}
    {T : SepTree LocalId K n} (h : Stands t w.store S T) (k : K) :
    (k ∉ S ∧ Engine.Returns (fun fuel => t.planRemove fuel k) w (t, none) w) ∨
    (k ∈ S ∧ ∃ (n' : Nat) (T' : SepTree LocalId K n') (batch : List (Write V)),
      Engine.Returns (fun fuel => t.planRemove fuel k) w ({ t with root := T'.id }, some batch) w ∧
      w.store.apply batch = .ok (w.store.writes batch) ∧
      Stands { t with root := T'.id } (w.store.writes batch) (S \ {k}) T') := by
  rcases planRemove_spec hleaf hcap h.shape k h.only.1 h.nodup with
    ⟨hk, hrun⟩ | ⟨hk, n', T', batch, hrun, hplan, hshape, hkeys⟩
  · exact .inl ⟨fun hS => hk ((h.mem_keys k).mpr hS), hrun⟩
  · refine .inr ⟨(h.mem_keys k).mp hk, n', T', batch, hrun, hplan.applies,
      h.planned hplan hshape fun j => ?_⟩
    rw [hkeys, h.mem_keys, Set.mem_sdiff, Set.mem_singleton_iff, and_comm]

structure Ordered (t : BpTree) (s : Store V) (S : Set K) {n : Nat} (T : SepTree LocalId K n) :
    Prop where
  root : T.id = t.root
  sorted : T.flat.Pairwise (· < ·)
  only : Exactly s (T.cells (layout V t.tenant))
  nodup : (addrs (T.cells (layout V t.tenant))).Nodup
  mem_keys : ∀ k, k ∈ T.keys ↔ k ∈ S

omit [DecidableEq V] in
theorem Ordered.stands {n : Nat} {T : SepTree LocalId K n} (h : Ordered t s S T)
    (hfilled : T.RootFilled t.caps) : Stands t s S T :=
  ⟨⟨h.root, h.sorted, hfilled⟩, SepTree.itemKeys_flat T ▸ SepTree.itemKeys_pairwise h.sorted,
    h.only, h.nodup, h.mem_keys⟩

theorem Run.ordered (hleaf : 1 ≤ leafCap) (h : Run V tenant leafCap internalCap t s S) :
    (t.tenant = tenant ∧ t.leafCap = leafCap ∧ t.internalCap = internalCap) ∧
      ∃ (n : Nat) (T : SepTree LocalId K n), Ordered t s S T ∧
        (t.Roomy → T.RootFilled t.caps) := by
  induction h with
  | create hempty hplan happly =>
    obtain ⟨hcaps, happly', hT⟩ := create_stands hempty hplan
    cases happly.symm.trans happly'
    exact ⟨hcaps, 0, _, ⟨hT.shape.root, hT.shape.sorted, hT.only, hT.nodup, hT.mem_keys⟩,
      fun _ => hT.shape.filled⟩
  | insert k h hfresh hplan happly ih =>
    obtain ⟨⟨rfl, rfl, rfl⟩, n, T, hT, hfilled⟩ := ih
    obtain ⟨n', T', batch, w', hrun, hplan', hs, hfilled', hkeys⟩ := planInsert_sorted hleaf hT.root
      hT.sorted k hT.only.1 hT.nodup hfresh (List.mem_singleton_self _)
    cases (hplan.unique hrun).1
    cases happly.symm.trans hplan'.applies
    refine ⟨⟨rfl, rfl, rfl⟩, n', T', ⟨rfl, hs, hplan'.replaces.exactly hT.only, hplan'.nodup,
      fun j => ?_⟩, fun hroomy => hfilled' hroomy (hfilled hroomy)⟩
    rw [hkeys, hT.mem_keys, Set.mem_insert_iff]
  | remove k h hplan happly ih =>
    obtain ⟨⟨rfl, rfl, rfl⟩, n, T, hT, hfilled⟩ := ih
    rcases planRemove_sorted [nodeLower] hT.root hT.sorted k hT.only.1 hT.nodup with
      ⟨-, hrun⟩ | ⟨-, n', T', batch, hrun, hplan', hs, hfilled', hkeys⟩
    · cases (hplan.unique hrun).1
    · cases (hplan.unique hrun).1
      cases happly.symm.trans hplan'.applies
      refine ⟨⟨rfl, rfl, rfl⟩, n', T', ⟨rfl, hs, hplan'.replaces.exactly hT.only, hplan'.nodup,
        fun j => ?_⟩, fun hroomy => hfilled' hroomy (hfilled hroomy)⟩
      rw [hkeys, hT.mem_keys, Set.mem_sdiff, Set.mem_singleton_iff, and_comm]
  | @removeAbsent w w' t t' S k h hplan ih =>
    obtain ⟨⟨rfl, rfl, rfl⟩, n, T, hT, hfilled⟩ := ih
    rcases planRemove_sorted [nodeLower] hT.root hT.sorted k hT.only.1 hT.nodup with
      ⟨hk, hrun⟩ | ⟨-, n', T', batch, hrun, -⟩
    · cases (hplan.unique hrun).1
      rw [Set.sdiff_singleton_eq_self fun hS => hk ((hT.mem_keys k).mpr hS)]
      exact ⟨⟨rfl, rfl, rfl⟩, n, T, hT, hfilled⟩
    · cases (hplan.unique hrun).1

theorem Run.stands (hleaf : 4 ≤ leafCap) (hcap : 4 ≤ internalCap)
    (h : Run V tenant leafCap internalCap t s S) :
    (t.tenant = tenant ∧ t.leafCap = leafCap ∧ t.internalCap = internalCap) ∧
      ∃ (n : Nat) (T : SepTree LocalId K n), Stands t s S T := by
  obtain ⟨⟨htenant, hl, hi⟩, n, T, hT, hfilled⟩ := h.ordered (by omega)
  exact ⟨⟨htenant, hl, hi⟩, n, T, hT.stands (hfilled ⟨hl ▸ hleaf, hi ▸ hcap⟩)⟩

-- Every state of every run stands for a tree over the keys it should hold, and
-- the next insertion, removal or lookup returns.
theorem bptree_runs (hleaf : 4 ≤ leafCap) (hcap : 4 ≤ internalCap)
    (h : Run V tenant leafCap internalCap t s S) :
    (∃ (n : Nat) (T : SepTree LocalId K n), Stands t s S T) ∧
    (∀ w : World V, w.store = s → Unused tenant [nodeLower] w → ∀ k, ∃ t' batch w' s',
      Engine.Returns (fun fuel => t.planInsert fuel k) w (t', batch) w' ∧
      s.apply batch = .ok s' ∧ Run V tenant leafCap internalCap t' s' (insert k S)) ∧
    (∀ w : World V, w.store = s → ∀ k, ∃ t' result,
      Engine.Returns (fun fuel => t.planRemove fuel k) w (t', result) w ∧
      (result = none ↔ k ∉ S) ∧ ∀ batch ∈ result, ∃ s', s.apply batch = .ok s' ∧
        Run V tenant leafCap internalCap t' s' (S \ {k})) ∧
    ∀ w : World V, w.store = s → ∀ k, ∃ found,
      Engine.Returns (fun fuel => t.contains fuel k) w found w ∧ (found = true ↔ k ∈ S) := by
  obtain ⟨⟨htenant, hl, hi⟩, n, T, hT⟩ := h.stands hleaf hcap
  rw [← hl] at hleaf
  rw [← hi] at hcap
  refine ⟨⟨n, T, hT⟩, ?_, ?_, ?_⟩
  · rintro w rfl hfresh k
    obtain ⟨n', T', batch, w', hrun, happly, -⟩ :=
      insert_stands hleaf hcap hT (by rwa [htenant]) k
    exact ⟨_, batch, w', _, hrun, happly, .insert k h hfresh hrun happly⟩
  · rintro w rfl k
    rcases remove_stands hleaf hcap hT k with ⟨hk, hrun⟩ | ⟨hk, n', T', batch, hrun, happly, -⟩
    · exact ⟨t, none, hrun, by simp [hk], by simp⟩
    · refine ⟨_, some batch, hrun, by simp [hk], fun b hb => ?_⟩
      cases hb
      exact ⟨_, happly, .remove k h hrun happly⟩
  · rintro w rfl k
    exact ⟨_, contains_spec hT.shape k hT.only.1, by simp [hT.mem_keys]⟩

end Steps

instance nodeCodecSelf {K : Type} : NodeCodec (NodeBody K) K := ⟨id, .ok, fun _ => rfl⟩

def sampleStore : Store (NodeBody LocalId) :=
  Function.update (fun _ => none) (⟨0, 7, nodeLower⟩ : Core.Id) (some (.leaf []))

theorem bptree_runs_sample : ∃ (t : BpTree) (s : Store (NodeBody LocalId)),
    Run (NodeBody LocalId) 7 4 4 t s ({⟨1, 0⟩} : Set LocalId) ∧
      ∃ (n : Nat) (T : SepTree LocalId LocalId n), Stands t s ({⟨1, 0⟩} : Set LocalId) T := by
  have hcreate : Run (K := LocalId) (NodeBody LocalId) 7 4 4 ⟨⟨0, nodeLower⟩, 7, 4, 4⟩
      sampleStore ∅ := .create (w := ⟨fun _ => none, fun n => n, 0⟩) rfl rfl rfl
  have hfresh : Unused 7 [nodeLower] ⟨sampleStore, fun n => n + 1, 0⟩ := by
    refine ⟨fun a b h => by simpa using h, fun n lower _ => ?_⟩
    have hne : (⟨n + 1, 7, lower⟩ : Core.Id) ≠ ⟨0, 7, nodeLower⟩ := fun h =>
      Nat.succ_ne_zero n (congrArg Core.Id.key h)
    change sampleStore ⟨n + 1, 7, lower⟩ = none
    rw [sampleStore, Function.update_of_ne hne]
  obtain ⟨t, batch, w', s, -, -, hinsert⟩ :=
    (bptree_runs (by decide) (by decide) hcreate).2.1 _ rfl hfresh ⟨1, 0⟩
  rw [insert_empty_eq] at hinsert
  exact ⟨t, s, hinsert, (bptree_runs (by decide) (by decide) hinsert).1⟩

end WaveDb.Index
