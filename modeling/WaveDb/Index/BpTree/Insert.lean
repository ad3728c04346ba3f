import WaveDb.Index.BpTree.Descent
import WaveDb.Core.Plan
import Mathlib

namespace WaveDb.Index

open WaveDb.Lib WaveDb.Core

def nodeLower : Nat := (LocalId.new 0 true (typeSalt bptreeNodeStructHash)).lower

def BpTree.caps (t : BpTree) : Caps := ⟨t.leafCap, t.internalCap⟩

section Split

variable {K A B : Type} {d : Nat} (L : Layout LocalId K A B)

theorem flat_split (id id' : LocalId) (first : SepTree LocalId K d) (s : K)
    (child : SepTree LocalId K d) (a b : List (K × SepTree LocalId K d)) :
    (SepTree.node id first (a ++ (s, child) :: b)).flat =
      (SepTree.node id first a).flat ++ sepItem s :: (SepTree.node id' child b).flat := by
  simp

def widen (f : Frame LocalId K d) (sep : K) (right : SepTree LocalId K d) : Frame LocalId K d :=
  { f with after := (sep, right) :: f.after }

theorem kidIds_fst (f : Frame LocalId K d) (sep : K) (right : SepTree LocalId K d)
    (hole : LocalId) : (f.kidIds hole).1 = ((widen f sep right).kidIds hole).1 :=
  join_fst_cons _ _ _ _

theorem insertIdx_kidIds (f : Frame LocalId K d) (sep : K) (right : SepTree LocalId K d)
    (hole : LocalId) :
    (f.kidIds hole).2.insertIdx f.before.length (sep, right.id) =
      ((widen f sep right).kidIds hole).2 := by
  have hlen : f.before.length = (f.before.map fun e => (e.1.id, e.2)).length := by simp
  rw [Frame.kidIds, hlen, insertIdx_join]
  rfl

theorem size_widen (f : Frame LocalId K d) (sep : K) (right : SepTree LocalId K d) :
    (widen f sep right).size = f.size + 1 := rfl

theorem post_widen (f : Frame LocalId K d) (sep : K) (right : SepTree LocalId K d) :
    (widen f sep right).post = sepItem sep :: right.flat ++ f.post := by
  simp [widen, Frame.post]

theorem pre_widen (f : Frame LocalId K d) (sep : K) (right : SepTree LocalId K d) :
    (widen f sep right).pre = f.pre := rfl

theorem siblings_widen (f : Frame LocalId K d) (sep : K) (right : SepTree LocalId K d) :
    (widen f sep right).siblings.Perm (right :: f.siblings) := by
  simp only [widen, Frame.siblings, List.map_cons]
  exact List.perm_middle

end Split

section Insert

variable {V K : Type} [NodeCodec V K] [DecidableEq V] {t : BpTree} {w w₀ : World V}
  {kinds : List Nat} {batch : List (Write V)} {old : List (Id × V)}

theorem runIn_mintNodeId (w : World V) :
    (mintNodeId : Engine V LocalId).runIn w = (.ok ⟨w.clock 0, nodeLower⟩, w.tick) := rfl

omit [NodeCodec V K] [DecidableEq V] in
theorem cells_widen {d : Nat} (f : Frame LocalId K d) (sep : K) (l r : SepTree LocalId K d)
    (L : Layout LocalId K Id V) (rest : List (Id × V)) :
    (l.cells L ++ r.cells L ++ (f.cells L l.id ++ rest)).Perm
      ((L.addr f.id, L.node (f.kidIds l.id).1 (f.kidIds l.id).2) ::
        (SepTree.kidCells L (join f.before l ((sep, r) :: f.after)).1
          (join f.before l ((sep, r) :: f.after)).2 ++ rest)) := by
  have hkids := (widen f sep r).kidCells_join L l
  have hsib := (siblings_widen f sep r).flatMap_right (SepTree.cells L)
  have hall := hkids.trans (hsib.append_left _)
  rw [← Multiset.coe_eq_coe] at hall ⊢
  simp only [widen, ← Multiset.coe_add, ← Multiset.cons_coe, List.flatMap_cons, Frame.cells,
    ← Multiset.singleton_add] at hall ⊢
  rw [hall]
  abel

omit [NodeCodec V K] [DecidableEq V] in
theorem perm_halves (x y : Id × V) (a b c : List (Id × V)) :
    (y :: x :: (a ++ b ++ c)).Perm (x :: a ++ y :: b ++ c) := by
  rw [← Multiset.coe_eq_coe]
  simp only [← Multiset.coe_add, ← Multiset.cons_coe, ← Multiset.singleton_add]
  abel

-- The widened parent is full, so it is cut at its median separator.
theorem filled_split {c : Caps} {d : Nat} (hcap : 4 ≤ c.inner) (id id' : LocalId)
    {first child : SepTree LocalId K d} {ps : K} {a b : List (K × SepTree LocalId K d)}
    (hlen : (SepTree.node id first (a ++ (ps, child) :: b)).size = c.inner + 1) (ha : a.length = (c.inner + 1) / 2)
    (hkids : (SepTree.node id first (a ++ (ps, child) :: b)).KidsFilled c) :
    (SepTree.node id first a).Filled c ∧ (SepTree.node id' child b).Filled c := by
  obtain ⟨hfirst, hrest⟩ := hkids
  rw [SepTree.size_node, List.length_append, List.length_cons] at hlen
  refine ⟨⟨⟨by omega, by omega⟩, hfirst, fun e he => hrest e (by simp [he])⟩,
    ⟨⟨by omega, by omega⟩, hrest (ps, child) (by simp), fun e he => hrest e (by simp [he])⟩⟩

theorem splitUp_spec [LinearOrder K] (hfresh : Unused t.tenant kinds w₀) (hk : nodeLower ∈ kinds)
    {d n : Nat} (p : Path LocalId K d n) (l r : SepTree LocalId K d) (sep : K)
    (hroot : (p.plug l).id = t.root)
    (hplan : Planned t.tenant kinds w₀ w batch old
      (l.cells (layout V t.tenant) ++ r.cells (layout V t.tenant) ++
        p.cells (layout V t.tenant) l.id)) :
    ∃ (n' : Nat) (T : SepTree LocalId K n') (batch' : List (Write V)) (w' : World V),
      (t.splitUp (frames p l.id) l.id sep r.id batch).runIn w =
        (.ok ({ t with root := T.id }, batch'), w') ∧
      Planned t.tenant kinds w₀ w' batch' old (T.cells (layout V t.tenant)) ∧
      T.flat = p.pre ++ (l.flat ++ sepItem sep :: r.flat) ++ p.post ∧
      (4 ≤ t.internalCap → p.Filled t.caps → l.Filled t.caps → r.Filled t.caps →
        T.RootFilled t.caps) := by
  induction p generalizing w batch sep with
  | @nil n =>
    refine ⟨n + 1, .node ⟨w.clock 0, nodeLower⟩ l [(sep, r)], _, w.tick, rfl, ?_, ?_,
      fun hcap _ hl hr => ⟨?_, by simp, hl, by simpa using hr⟩⟩
    · exact (hplan.mint _ hfresh hk).perm
        (by simp [Path.cells, SepTree.kidCells]; rfl)
    · simp [Path.pre, Path.post]
    · simp only [SepTree.size_node, List.length_singleton, Caps.at, BpTree.caps]
      omega
  | @cons d n f p ih =>
    have hplan := hplan.perm (cells_widen f sep l r (layout V t.tenant) _)
    have hfilled : (Path.cons f p).Filled t.caps → l.Filled t.caps → r.Filled t.caps →
        ((widen f sep r).fill l).KidsFilled t.caps := fun hp hl hr =>
      ((widen f sep r).kidsFilled_fill t.caps l).mpr ⟨hl, fun x hx => by
        rcases List.mem_cons.mp ((siblings_widen f sep r).mem_iff.mp hx) with rfl | hx
        · exact hr
        · exact hp.1 x hx⟩
    rw [frames, BpTree.splitUp, insertIdx_kidIds, kidIds_fst f sep r]
    by_cases hfit : ((widen f sep r).kidIds l.id).2.length ≤ t.internalCap
    · -- The parent takes the new separator and nothing above it changes.
      rw [if_pos hfit]
      have hid : (p.plug ((widen f sep r).fill l)).id = t.root :=
        (p.id_plug ((widen f sep r).fill l) (f.fill l) rfl).trans hroot
      refine ⟨n, p.plug ((widen f sep r).fill l), _, w, by rw [hid]; rfl, ?_, ?_,
        fun _ hp hl hr => ?_⟩
      · have hcells := p.cells_plug (layout V t.tenant) ((widen f sep r).fill l)
        rw [Frame.cells_fill_eq] at hcells
        exact (hplan.put _).perm hcells.symm
      · rw [p.flat_plug, Frame.flat_fill, pre_widen, post_widen]
        simp [Path.pre, Path.post]
      · rw [p.rootFilled_plug, p.fits_fill, ← (widen f sep r).kidsFilled_fill]
        rw [Frame.kidIds_eq, List.length_map, length_join] at hfit
        exact ⟨⟨hfilled hp hl hr, Nat.le_succ_of_le hp.2.1.1, hfit⟩, hp.2.2⟩
    · rw [if_neg hfit]
      have hsize : (join f.before l ((sep, r) :: f.after)).2.length = f.size + 1 := by
        rw [length_join]
        rfl
      -- Cut at the median: its separator goes up, its child starts the right half.
      obtain ⟨a, ⟨ps, child⟩, b, hcut, ha⟩ := exists_cut
        (join f.before l ((sep, r) :: f.after)).2 ((f.size + 1) / 2) (by omega)
      have hentries : ((widen f sep r).kidIds l.id).2 =
          a.map (fun e => (e.1, e.2.id)) ++ (ps, child.id) :: b.map fun e => (e.1, e.2.id) := by
        rw [Frame.kidIds_eq]
        change (join f.before l ((sep, r) :: f.after)).2.map _ = _
        simp [hcut]
      have hhalf : ((widen f sep r).kidIds l.id).2.length / 2 =
          (a.map fun e => (e.1, e.2.id)).length := by
        rw [Frame.kidIds_eq, List.length_map, List.length_map, ha]
        exact congrArg (· / 2) hsize
      rw [hhalf, hentries, List.drop_left, List.take_left,
        Engine.runIn_bind_ok (runIn_mintNodeId w)]
      let first := (join f.before l ((sep, r) :: f.after)).1
      let rightId : LocalId := ⟨w.clock 0, nodeLower⟩
      have hnode : (widen f sep r).fill l = .node f.id first (a ++ (ps, child) :: b) := by
        rw [← hcut]
        rfl
      have hplan' : Planned t.tenant kinds w₀ w.tick
          (batch ++ [t.put f.id (.internal first.id (a.map fun e => (e.1, e.2.id))),
            t.put rightId (.internal child.id (b.map fun e => (e.1, e.2.id)))]) old
          ((SepTree.node f.id first a).cells (layout V t.tenant) ++
            (SepTree.node rightId child b).cells (layout V t.tenant) ++
            p.cells (layout V t.tenant) f.id) := by
        rw [hcut, SepTree.kidCells_split] at hplan
        have hmint := (hplan.put (NodeCodec.toBytes (NodeBody.internal first.id
          (a.map fun e => (e.1, e.2.id))))).mint (NodeCodec.toBytes (NodeBody.internal child.id
          (b.map fun e => (e.1, e.2.id)))) hfresh hk
        rw [List.append_assoc] at hmint
        exact hmint.perm (perm_halves _ _ _ _ _)
      obtain ⟨n', T, batch', w', hrun, hT, hflat, hroot'⟩ := ih (.node f.id first a)
        (.node rightId child b) ps
        ((p.id_plug (.node f.id first a) (f.fill l) rfl).trans hroot) hplan'
      refine ⟨n', T, batch', w', ?_, hT, ?_, fun hcap hp hl hr => ?_⟩
      · rw [← hrun]
        have hleft : ((widen f sep r).kidIds l.id).1 = first.id := by rw [Frame.kidIds_eq]; rfl
        rw [hleft]
        rfl
      · have hflat' := (widen f sep r).flat_fill l
        rw [hnode, flat_split f.id rightId, pre_widen, post_widen] at hflat'
        rw [hflat, Path.pre, Path.post, hflat']
        simp
      · have hmax : f.size ≤ t.internalCap := hp.2.1.2
        rw [Frame.kidIds_eq, List.length_map, length_join] at hfit
        change ¬ (f.size + 1 ≤ t.internalCap) at hfit
        have hlen : ((widen f sep r).fill l).size = t.internalCap + 1 := by
          rw [Frame.size_fill, size_widen]
          omega
        have hkids := hfilled hp hl hr
        rw [hnode] at hlen hkids
        obtain ⟨hl', hr'⟩ := filled_split (c := t.caps) hcap f.id rightId hlen
          (by simp only [BpTree.caps]; omega) hkids
        exact hroot' hcap hp.2.2 hl' hr'

variable [LinearOrder K]

-- A tree that the handle `t` stands for, apart from where its nodes are kept.
structure Shape {n : Nat} (t : BpTree) (T : SepTree LocalId K n) : Prop where
  root : T.id = t.root
  sorted : T.flat.Pairwise (· < ·)
  filled : T.RootFilled t.caps

theorem pairwise_insert {α : Type} [LinearOrder α] {x y : List α} {m : α}
    (h : (x ++ y).Pairwise (· < ·)) (hx : ∀ i ∈ x, i < m) (hy : ∀ i ∈ y, m < i) :
    (x ++ m :: y).Pairwise (· < ·) := by
  rw [List.pairwise_append] at h ⊢
  refine ⟨h.1, List.pairwise_cons.mpr ⟨hy, h.2.1⟩, ?_⟩
  intro i hi j hj
  rcases List.mem_cons.mp hj with rfl | hj
  · exact hx i hi
  · exact h.2.2 i hi j hj

theorem sorted_insert {n : Nat} {q : Path LocalId K 0 n} {target : K} {id : LocalId}
    {a b : List K} (hs : (q.plug (.leaf id (a ++ b))).flat.Pairwise (· < ·))
    (hq : Around q target) (ha : ∀ k ∈ a, k < target) (hb : ∀ k ∈ b, target < k) :
    (q.pre ++ (a ++ target :: b).map keyItem ++ q.post).Pairwise (· < ·) := by
  have hins : ((q.pre ++ a.map keyItem) ++ keyItem target :: (b.map keyItem ++ q.post)).Pairwise
      (· < ·) := by
    apply pairwise_insert
    · simpa [q.flat_plug] using hs
    · intro i hi
      rcases List.mem_append.mp hi with hi | hi
      · exact hq.pre i hi
      · obtain ⟨k, hk, rfl⟩ := List.mem_map.mp hi
        exact keyItem_lt_keyItem.mpr (ha k hk)
    · intro i hi
      rcases List.mem_append.mp hi with hi | hi
      · obtain ⟨k, hk, rfl⟩ := List.mem_map.mp hi
        exact keyItem_lt_keyItem.mpr (hb k hk)
      · exact hq.post i hi
  simpa using hins

-- Cutting a leaf puts its right half's first key up as a separator. The left
-- half is not empty, so everything before the cut is before that separator.
theorem sorted_cut {x y : List (Item K)} {l r : List K} {sep : K} (hl : l ≠ [])
    (hs : (x ++ (l ++ sep :: r).map keyItem ++ y).Pairwise (· < ·)) :
    (x ++ (l.map keyItem ++ sepItem sep :: (sep :: r).map keyItem) ++ y).Pairwise (· < ·) := by
  have hs' : ((x ++ l.map keyItem) ++ ((sep :: r).map keyItem ++ y)).Pairwise (· < ·) := by
    simpa using hs
  have hcut : ((x ++ l.map keyItem) ++ sepItem sep :: ((sep :: r).map keyItem ++ y)).Pairwise
      (· < ·) := by
    have happ := List.pairwise_append.mp hs'
    have hlt : ∀ k ∈ l, keyItem k < sepItem sep := fun k hk =>
      keyItem_lt_sepItem.mpr (keyItem_lt_keyItem.mp
        (happ.2.2 (keyItem k) (List.mem_append_right _ (List.mem_map_of_mem hk)) (keyItem sep)
          (by simp)))
    apply pairwise_insert hs'
    · intro i hi
      rcases List.mem_append.mp hi with hi | hi
      · obtain ⟨k, hk⟩ := List.exists_mem_of_ne_nil l hl
        have hik := (List.pairwise_append.mp happ.1).2.2 i hi (keyItem k)
          (List.mem_map_of_mem hk)
        exact hik.trans (hlt k hk)
      · obtain ⟨k, hk, rfl⟩ := List.mem_map.mp hi
        exact hlt k hk
    · intro i hi
      rw [List.map_cons, List.cons_append] at hi happ
      rcases List.mem_cons.mp hi with rfl | hi
      · exact sepItem_lt_keyItem.mpr le_rfl
      · exact (sepItem_lt_keyItem.mpr le_rfl).trans ((List.pairwise_cons.mp happ.2.1).1 i hi)
  simpa using hcut

omit [LinearOrder K] in
theorem keys_plug_leaf {n : Nat} (q : Path LocalId K 0 n) (id : LocalId) (keys : List K) :
    (q.plug (.leaf id keys)).keys = SepTree.itemKeys q.pre ++ keys ++ SepTree.itemKeys q.post := by
  rw [← SepTree.itemKeys_flat, q.flat_plug]
  simp

omit [LinearOrder K] in
theorem size_le_of_fits {c : Caps} {n : Nat} {q : Path LocalId K 0 n} {id : LocalId}
    {keys : List K} (h : q.Fits c (.leaf id keys)) : keys.length ≤ c.leaf := by
  cases q with
  | nil => exact h.size_le
  | cons f q => exact h.2

theorem descend_root {n : Nat} {T : SepTree LocalId K n} (hroot : T.id = t.root)
    (hs : T.flat.Pairwise (· < ·)) (target : K) (hheld : Holds w.store (T.cells (layout V t.tenant))) :
    ∃ (id : LocalId) (keys a b : List K) (q : Path LocalId K 0 n),
      q.plug (.leaf id keys) = T ∧ Around q target ∧
      (∀ k ∈ a, k < target) ∧ (∀ k ∈ b, target < k) ∧
      (keys = a ++ target :: b ∨ keys = a ++ b) ∧
      Engine.Returns (fun fuel => t.descend target fuel t.root []) w (keys, id, frames q id) w := by
  obtain ⟨id, keys, q, hq, haround, hrun⟩ :=
    descend_eq (t := t) target T .nil hs (around_nil target) hheld
  have hsorted := hs
  rw [show T = q.plug (.leaf id keys) from hq.symm, q.flat_plug, List.append_assoc,
    List.pairwise_append, List.pairwise_append] at hsorted
  have hkeys : keys.Pairwise (· < ·) := by simpa [List.pairwise_map] using hsorted.2.1.1
  obtain ⟨a, b, ha, hb, hsplit⟩ := exists_split keys target hkeys
  rw [hroot] at hrun
  exact ⟨id, keys, a, b, q, hq, haround, ha, hb, hsplit, n, hrun⟩

-- Room for four keys or separators. Only then are the bounds on the sizes kept.
def BpTree.Roomy (t : BpTree) : Prop := 4 ≤ t.leafCap ∧ 4 ≤ t.internalCap

theorem insert_leaf_spec (hleaf : 1 ≤ t.leafCap) {n : Nat}
    {q : Path LocalId K 0 n} {id : LocalId} {keys keys' : List K}
    (hroot : (q.plug (.leaf id keys)).id = t.root) (hlen : keys'.length = keys.length + 1)
    (hs : (q.pre ++ keys'.map keyItem ++ q.post).Pairwise (· < ·))
    (hheld : Holds w.store ((q.plug (.leaf id keys)).cells (layout V t.tenant)))
    (hnodup : (addrs ((q.plug (.leaf id keys)).cells (layout V t.tenant))).Nodup)
    (hfresh : Unused t.tenant kinds w) (hk : nodeLower ∈ kinds) :
    ∃ (n' : Nat) (T' : SepTree LocalId K n') (batch : List (Write V)) (w' : World V),
      (if keys'.length ≤ t.leafCap then return (t, [t.put id (.leaf keys')])
        else
          match keys'.drop (keys'.length / 2) with
          | [] => .stuck
          | sep :: rightRest => do
              let rightId ← mintNodeId
              t.splitUp (frames q id) id sep rightId
                [t.put id (.leaf (keys'.take (keys'.length / 2))),
                  t.put rightId (.leaf (sep :: rightRest))] :
          Engine V (BpTree × List (Write V))).runIn w =
        (.ok ({ t with root := T'.id }, batch), w') ∧
      Planned t.tenant kinds w w' batch
        ((q.plug (.leaf id keys)).cells (layout V t.tenant)) (T'.cells (layout V t.tenant)) ∧
      T'.flat.Pairwise (· < ·) ∧
      (t.Roomy → (q.plug (.leaf id keys)).RootFilled t.caps → T'.RootFilled t.caps) ∧
      T'.keys = SepTree.itemKeys q.pre ++ keys' ++ SepTree.itemKeys q.post := by
  have hstart : Planned t.tenant kinds w w [] _ (_ :: q.cells (layout V t.tenant) id) :=
    (Planned.refl hheld hnodup).perm (q.cells_plug (layout V t.tenant) _)
  by_cases hfit : keys'.length ≤ t.leafCap
  · rw [if_pos hfit]
    have hid : (q.plug (.leaf id keys')).id = t.root :=
      (q.id_plug (.leaf id keys') (.leaf id keys) rfl).trans hroot
    refine ⟨n, q.plug (.leaf id keys'), _, w, by rw [hid]; rfl, ?_, ?_, fun _ hfilled => ?_,
      keys_plug_leaf q id keys'⟩
    · exact (hstart.put _).perm (q.cells_plug (layout V t.tenant) (.leaf id keys')).symm
    · rw [q.flat_plug]
      exact hs
    · obtain ⟨hfits, hpath⟩ := (q.rootFilled_plug t.caps _).mp hfilled
      refine (q.rootFilled_plug _ _).mpr ⟨?_, hpath⟩
      cases q with
      | nil => exact ⟨hfit, fun h => absurd h (Nat.lt_irrefl 0), trivial⟩
      | cons f q => exact ⟨by rw [hlen]; exact Nat.le_succ_of_le hfits.1, hfit⟩
  · rw [if_neg hfit]
    obtain ⟨l, sep, r, rfl, hl⟩ := exists_cut keys' (keys'.length / 2) (by omega)
    rw [← hl, List.drop_left, List.take_left, Engine.runIn_bind_ok (runIn_mintNodeId w)]
    rw [List.length_append, List.length_cons] at hl hlen hfit
    have hcut := sorted_cut (by rintro rfl; simp only [List.length_nil] at hl hfit; omega) hs
    have hplan := (hstart.put (NodeCodec.toBytes (NodeBody.leaf l))).mint
      (NodeCodec.toBytes (NodeBody.leaf (sep :: r))) hfresh hk
    obtain ⟨n', T', batch', w', hrun, hplan', hflat, hfilled⟩ := splitUp_spec hfresh hk q
      (.leaf id l) (.leaf ⟨w.clock 0, nodeLower⟩ (sep :: r)) sep
      ((q.id_plug (.leaf id l) (.leaf id keys) rfl).trans hroot)
      (hplan.perm (List.Perm.swap _ _ _))
    refine ⟨n', T', batch', w', hrun, hplan', ?_, fun hroomy hold => ?_, ?_⟩
    · rw [hflat]
      exact hcut
    · obtain ⟨hfits, hpath⟩ := (q.rootFilled_plug t.caps _).mp hold
      have hmax : keys.length ≤ t.leafCap := size_le_of_fits hfits
      have hfour := hroomy.1
      exact hfilled hroomy.2 hpath
        ⟨by simp only [BpTree.caps]; omega, by simp only [BpTree.caps]; omega⟩
        ⟨by simp only [BpTree.caps, List.length_cons]; omega,
          by simp only [BpTree.caps, List.length_cons]; omega⟩
    · rw [← SepTree.itemKeys_flat, hflat]
      simp

theorem planInsert_sorted (hleaf : 1 ≤ t.leafCap) {n : Nat} {T : SepTree LocalId K n}
    (hroot : T.id = t.root) (hs : T.flat.Pairwise (· < ·)) (target : K)
    (hheld : Holds w.store (T.cells (layout V t.tenant)))
    (hnodup : (addrs (T.cells (layout V t.tenant))).Nodup)
    (hfresh : Unused t.tenant kinds w) (hk : nodeLower ∈ kinds) :
    ∃ (n' : Nat) (T' : SepTree LocalId K n') (batch : List (Write V)) (w' : World V),
      Engine.Returns (fun fuel => t.planInsert fuel target) w ({ t with root := T'.id }, batch) w' ∧
      Planned t.tenant kinds w w' batch (T.cells (layout V t.tenant))
        (T'.cells (layout V t.tenant)) ∧
      T'.flat.Pairwise (· < ·) ∧ (t.Roomy → T.RootFilled t.caps → T'.RootFilled t.caps) ∧
      ∀ k, k ∈ T'.keys ↔ k = target ∨ k ∈ T.keys := by
  obtain ⟨id, keys, a, b, q, rfl, haround, ha, hb, hkeys, hrun⟩ :=
    descend_root hroot hs target hheld
  rcases hkeys with rfl | rfl
  · -- The key is there, and the plan is empty.
    refine ⟨n, _, [], w, hrun.bind (.of_run ?_), .refl hheld hnodup, hs, fun _ hfilled => hfilled,
      fun k => ⟨.inr, fun hk => hk.elim (fun he => ?_) fun hk => hk⟩⟩
    · simp only [binarySearch_found ha]
      rw [hroot]
      rfl
    · rw [he, keys_plug_leaf]
      simp
  · obtain ⟨n', T', batch, w', hrun', hplan, hs', hfilled, hkeys'⟩ := insert_leaf_spec hleaf hroot
      (show (a ++ target :: b).length = (a ++ b).length + 1 by simp; omega) (sorted_insert hs haround ha hb)
      hheld hnodup hfresh hk
    refine ⟨n', T', batch, w', hrun.bind (.of_run ?_), hplan, hs', hfilled, fun k => ?_⟩
    · simp only [binarySearch_missing ha hb]
      rw [insertIdx_length_append]
      exact hrun'
    · rw [hkeys', keys_plug_leaf]
      simp only [List.mem_append, List.mem_cons]
      tauto

theorem planInsert_spec (hleaf : 4 ≤ t.leafCap) (hcap : 4 ≤ t.internalCap) {n : Nat}
    {T : SepTree LocalId K n} (hT : Shape t T) (target : K)
    (hheld : Holds w.store (T.cells (layout V t.tenant)))
    (hnodup : (addrs (T.cells (layout V t.tenant))).Nodup)
    (hfresh : Unused t.tenant kinds w) (hk : nodeLower ∈ kinds) :
    ∃ (n' : Nat) (T' : SepTree LocalId K n') (batch : List (Write V)) (w' : World V),
      Engine.Returns (fun fuel => t.planInsert fuel target) w ({ t with root := T'.id }, batch) w' ∧
      Planned t.tenant kinds w w' batch (T.cells (layout V t.tenant))
        (T'.cells (layout V t.tenant)) ∧
      Shape { t with root := T'.id } T' ∧ ∀ k, k ∈ T'.keys ↔ k = target ∨ k ∈ T.keys := by
  obtain ⟨n', T', batch, w', hrun, hplan, hs, hfilled, hkeys⟩ :=
    planInsert_sorted (by omega) hT.root hT.sorted target hheld hnodup hfresh hk
  exact ⟨n', T', batch, w', hrun, hplan, ⟨rfl, hs, hfilled ⟨hleaf, hcap⟩ hT.filled⟩, hkeys⟩

end Insert

end WaveDb.Index
