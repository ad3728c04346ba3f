import WaveDb.Index.BpTree.Insert

namespace WaveDb.Index

open WaveDb.Lib WaveDb.Core

section Siblings

variable {K : Type} {d : Nat}

def nodeBody : {d : Nat} → SepTree LocalId K d → NodeBody K
  | 0, .leaf _ keys => .leaf keys
  | _ + 1, .node _ first rest => .internal first.id (rest.map fun e => (e.1, e.2.id))

def restCells {A B : Type} (L : Layout LocalId K A B) : {d : Nat} → SepTree LocalId K d →
    List (A × B)
  | 0, _ => []
  | _ + 1, .node _ first rest => SepTree.kidCells L first rest

theorem cells_eq {V : Type} [NodeCodec V K] (tenant : Nat) : {d : Nat} →
    (T : SepTree LocalId K d) → T.cells (layout V tenant) =
      (T.id.toId tenant, NodeCodec.toBytes (nodeBody T)) :: restCells (layout V tenant) T
  | 0, .leaf _ _ => rfl
  | _ + 1, .node _ _ _ => rfl

def mergeTree (s : K) : {d : Nat} → SepTree LocalId K d → SepTree LocalId K d → SepTree LocalId K d
  | 0, .leaf id l, .leaf _ r => .leaf id (l ++ r)
  | _ + 1, .node id first rest, .node _ first' rest' => .node id first (rest ++ (s, first') :: rest')

def pairSize (l r : SepTree LocalId K d) : Nat :=
  match d with
  | 0 => l.size + r.size
  | _ + 1 => l.size + r.size + 1

theorem merge_eq (t : BpTree) (s : K) : {d : Nat} → (l r : SepTree LocalId K d) →
    t.merge s (nodeBody l) (nodeBody r) =
      if pairSize l r ≤ t.caps.at d * 3 / 4 then some (nodeBody (mergeTree s l r)) else none
  | 0, .leaf _ _, .leaf _ _ => rfl
  | _ + 1, .node _ _ rest, .node _ _ rest' => by
      simp [nodeBody, BpTree.merge, mergeTree, pairSize, Caps.at, BpTree.caps]

theorem id_mergeTree (s : K) : {d : Nat} → (l r : SepTree LocalId K d) →
    (mergeTree s l r).id = l.id
  | 0, .leaf _ _, .leaf _ _ => rfl
  | _ + 1, .node _ _ _, .node _ _ _ => rfl

theorem size_mergeTree (s : K) : {d : Nat} → (l r : SepTree LocalId K d) →
    (mergeTree s l r).size = pairSize l r
  | 0, .leaf _ _, .leaf _ _ => by simp [mergeTree, pairSize]
  | _ + 1, .node _ _ _, .node _ _ _ => by simp [mergeTree, pairSize]; omega

theorem flat_mergeTree (s : K) : {d : Nat} → (l r : SepTree LocalId K d) →
    (mergeTree s l r).flat.Sublist (l.flat ++ sepItem s :: r.flat)
  | 0, .leaf _ l, .leaf _ r => by
      simp [mergeTree]
  | _ + 1, .node _ _ _, .node _ _ _ => by simp [mergeTree]

theorem keys_mergeTree (s : K) : {d : Nat} → (l r : SepTree LocalId K d) →
    (mergeTree s l r).keys = l.keys ++ r.keys
  | 0, .leaf _ _, .leaf _ _ => rfl
  | _ + 1, .node _ _ _, .node _ _ _ => by simp [mergeTree, SepTree.keys]

theorem kidsFilled_mergeTree {c : Caps} (s : K) : {d : Nat} → (l r : SepTree LocalId K d) →
    l.KidsFilled c → r.KidsFilled c → (mergeTree s l r).KidsFilled c
  | 0, .leaf _ _, .leaf _ _, _, _ => trivial
  | _ + 1, .node _ _ rest, .node _ first' rest', hl, hr => by
      refine ⟨hl.1, fun e he => ?_⟩
      rcases List.mem_append.mp he with he | he
      · exact hl.2 e he
      · rcases List.mem_cons.mp he with rfl | he
        · exact hr.1
        · exact hr.2 e he

theorem restCells_mergeTree {A B : Type} (L : Layout LocalId K A B) (s : K) : {d : Nat} →
    (l r : SepTree LocalId K d) →
    restCells L (mergeTree s l r) = restCells L l ++ restCells L r
  | 0, .leaf _ _, .leaf _ _ => rfl
  | _ + 1, .node _ _ _, .node _ _ _ => SepTree.kidCells_split _ _ _ _ _ _

structure Evened [LinearOrder K] (c : Caps) (s : K) (l r : SepTree LocalId K d) (s' : K)
    (l' r' : SepTree LocalId K d) : Prop where
  bodies : redistribute s (nodeBody l) (nodeBody r) = (nodeBody l', nodeBody r', s')
  left_id : l'.id = l.id
  right_id : r'.id = r.id
  filled : l.KidsFilled c → r.KidsFilled c → l.size + r.size < c.at d + c.at d / 4 →
    l'.Filled c ∧ r'.Filled c
  keys : l'.keys ++ r'.keys = l.keys ++ r.keys
  cells : ∀ {A B : Type} (L : Layout LocalId K A B),
    restCells L l' ++ restCells L r' = restCells L l ++ restCells L r
  sorted : ∀ x y : List (Item K), (x ++ (l.flat ++ sepItem s :: r.flat) ++ y).Pairwise (· < ·) →
    (x ++ (l'.flat ++ sepItem s' :: r'.flat) ++ y).Pairwise (· < ·)

theorem exists_evened [LinearOrder K] {c : Caps} (s : K) : {d : Nat} → (l r : SepTree LocalId K d) →
    4 ≤ c.at d → c.at d * 3 / 4 < pairSize l r → ∃ s' l' r', Evened c s l r s' l' r'
  | 0, .leaf lid l, .leaf rid r, hcap, hbig => by
      simp only [pairSize, SepTree.size_leaf, Caps.at] at hbig hcap
      obtain ⟨a, s', b, hcut, ha⟩ := exists_cut (l ++ r) ((l ++ r).length / 2)
        (by rw [List.length_append]; omega)
      have hlen := congrArg List.length hcut
      rw [List.length_append] at ha
      rw [List.length_append, List.length_append, List.length_cons] at hlen
      refine ⟨s', .leaf lid a, .leaf rid (s' :: b), ?_, rfl, rfl, fun _ _ hsmall => ?_, hcut.symm,
        fun L => rfl, fun x y hs => ?_⟩
      · have hhalf : (l ++ r).length / 2 = a.length := by rw [List.length_append, ha]
        simp only [redistribute, nodeBody, hhalf]
        rw [hcut, List.take_left, List.drop_left]
        rfl
      · simp only [SepTree.size_leaf, Caps.at] at hsmall
        exact ⟨⟨by omega, by omega⟩, ⟨by rw [List.length_cons]; omega,
          by rw [List.length_cons]; omega⟩⟩
      · apply sorted_cut (by rintro rfl; simp at ha; omega)
        rw [← hcut]
        refine hs.sublist ?_
        simp
  | d + 1, .node lid lf lr, .node rid rf rr, hcap, hbig => by
      simp only [pairSize, SepTree.size_node, Caps.at] at hbig hcap
      obtain ⟨a, ⟨s', child⟩, b, hcut, ha⟩ := exists_cut (lr ++ (s, rf) :: rr)
        ((lr ++ (s, rf) :: rr).length / 2) (by rw [List.length_append, List.length_cons]; omega)
      have hlen := congrArg List.length hcut
      rw [List.length_append, List.length_cons] at ha
      rw [List.length_append, List.length_append, List.length_cons, List.length_cons] at hlen
      have hflat := (flat_split lid rid lf s rf lr rr).symm
      rw [hcut, flat_split lid rid] at hflat
      have hids : (lr.map fun e => (e.1, e.2.id)) ++ (s, rf.id) :: (rr.map fun e => (e.1, e.2.id)) =
          (a.map fun e => (e.1, e.2.id)) ++ (s', child.id) :: b.map fun e => (e.1, e.2.id) := by
        simpa using congrArg (List.map fun e => (e.1, e.2.id)) hcut
      have hhalf : ((lr.map fun e => (e.1, e.2.id)) ++ (s, rf.id) ::
          (rr.map fun e => (e.1, e.2.id))).length / 2 = (a.map fun e => (e.1, e.2.id)).length := by
        simp only [List.length_append, List.length_cons, List.length_map, ha]
      refine ⟨s', .node lid lf a, .node rid child b, ?_, rfl, rfl, fun hl hr hsmall => ?_, ?_, ?_, ?_⟩
      · simp only [redistribute, nodeBody]
        rw [hhalf, hids, List.drop_left, List.take_left]
      · have hkids := kidsFilled_mergeTree s (.node lid lf lr) (.node rid rf rr) hl hr
        change (SepTree.node lid lf (lr ++ (s, rf) :: rr)).KidsFilled c at hkids
        rw [hcut] at hkids
        simp only [SepTree.size_node, Caps.at] at hsmall
        exact ⟨⟨⟨by omega, by omega⟩, hkids.1, fun e he => hkids.2 e (by simp [he])⟩,
          ⟨⟨by omega, by omega⟩, hkids.2 (s', child) (by simp),
            fun e he => hkids.2 e (by simp [he])⟩⟩
      · rw [← SepTree.itemKeys_flat, ← SepTree.itemKeys_flat, ← SepTree.itemKeys_flat, ← SepTree.itemKeys_flat]
        have hk := congrArg SepTree.itemKeys hflat
        simpa only [SepTree.itemKeys_append, SepTree.itemKeys_sep] using hk.symm
      · intro A B L
        simp only [restCells]
        rw [← SepTree.kidCells_split, ← SepTree.kidCells_split, hcut]
      · intro x y hs
        rwa [← hflat]

-- The child in a frame's hole beside one of its neighbours, `l` before `r`,
-- with `g` the frame around both. The left neighbour is preferred.
structure Pair (f : Frame LocalId K d) (c : SepTree LocalId K d) (g : Frame LocalId K d) (s : K)
    (l r : SepTree LocalId K d) : Prop where
  id : g.id = f.id
  idx : g.before.length = f.before.length - 1
  ids : f.kidIds c.id = (widen g s r).kidIds l.id
  flat : f.pre ++ c.flat ++ f.post = g.pre ++ (l.flat ++ sepItem s :: r.flat) ++ g.post
  trees : (c :: f.siblings).Perm (l :: r :: g.siblings)
  side : (f.before.length = 0 ∧ l = c) ∨ (0 < f.before.length ∧ r = c)

theorem exists_pair (f : Frame LocalId K d) (c : SepTree LocalId K d) (hf : 0 < f.size) :
    ∃ g s l r, Pair f c g s l r := by
  obtain ⟨id, before, after⟩ := f
  rcases List.eq_nil_or_concat before with rfl | ⟨init, ⟨l, s⟩, rfl⟩
  · cases after with
    | nil => simp [Frame.size] at hf
    | cons e after =>
      obtain ⟨s, r⟩ := e
      exact ⟨⟨id, [], after⟩, s, c, r, rfl, rfl, rfl, by simp [Frame.pre, Frame.post],
        by simp [Frame.siblings], .inl ⟨rfl, rfl⟩⟩
  · refine ⟨⟨id, init, after⟩, s, l, c, rfl, by simp, ?_, ?_, ?_, .inr ⟨by simp, rfl⟩⟩
    · simp [Frame.kidIds, widen, join_snoc]
    · simp [Frame.pre, Frame.post]
    · simp only [Frame.siblings, List.concat_eq_append, List.map_append, List.map_singleton,
        List.append_assoc, List.singleton_append]
      exact (List.perm_middle.cons c).trans (List.Perm.swap _ _ _)

theorem Pair.size {f g : Frame LocalId K d} {c l r : SepTree LocalId K d} {s : K}
    (h : Pair f c g s l r) : f.size = g.size + 1 := by
  have hlen := congrArg (fun k => k.2.length) h.ids
  simp only [Frame.kidIds_eq, List.length_map, length_join] at hlen
  exact hlen

theorem Pair.siblings {f g : Frame LocalId K d} {c l r : SepTree LocalId K d} {s : K}
    (h : Pair f c g s l r) :
    (l = c ∧ f.siblings.Perm (r :: g.siblings)) ∨ (r = c ∧ f.siblings.Perm (l :: g.siblings)) := by
  rcases h.side with ⟨-, rfl⟩ | ⟨-, rfl⟩
  · exact .inl ⟨rfl, h.trees.cons_inv⟩
  · exact .inr ⟨rfl, (h.trees.trans (List.Perm.swap _ _ _)).cons_inv⟩

theorem Pair.filled {f g : Frame LocalId K d} {c l r : SepTree LocalId K d} {s : K} {cap : Caps}
    (h : Pair f c g s l r) (hc : c.KidsFilled cap) (hsib : ∀ x ∈ f.siblings, x.Filled cap) :
    l.KidsFilled cap ∧ r.KidsFilled cap ∧ ∀ x ∈ g.siblings, x.Filled cap := by
  have hkids : ∀ x ∈ f.siblings, x.KidsFilled cap := fun x hx =>
    ((x.filled_iff cap).mp (hsib x hx)).2
  rcases h.siblings with ⟨rfl, hp⟩ | ⟨rfl, hp⟩
  · exact ⟨hc, hkids r (hp.mem_iff.mpr List.mem_cons_self),
      fun x hx => hsib x (hp.mem_iff.mpr (List.mem_cons_of_mem _ hx))⟩
  · exact ⟨hkids l (hp.mem_iff.mpr List.mem_cons_self), hc,
      fun x hx => hsib x (hp.mem_iff.mpr (List.mem_cons_of_mem _ hx))⟩

theorem eraseIdx_kidIds (g : Frame LocalId K d) (s : K) (r : SepTree LocalId K d) (hole : LocalId) :
    ((widen g s r).kidIds hole).2.eraseIdx g.before.length = (g.kidIds hole).2 := by
  have hlen : g.before.length = (g.before.map fun e => (e.1.id, e.2)).length := by simp
  rw [Frame.kidIds, hlen]
  exact eraseIdx_join _ _ _ _

theorem kidIds_widen_congr (g : Frame LocalId K d) (s : K) {r r' : SepTree LocalId K d}
    (h : r'.id = r.id) (hole : LocalId) :
    (widen g s r').kidIds hole = (widen g s r).kidIds hole := by
  simp only [Frame.kidIds, widen, List.map_cons, h]

theorem modify_kidIds (g : Frame LocalId K d) (s s' : K) (r : SepTree LocalId K d)
    (hole : LocalId) :
    ((widen g s r).kidIds hole).2.modify g.before.length (fun e => (s', e.2)) =
      ((widen g s' r).kidIds hole).2 := by
  have hlen : g.before.length = (g.before.map fun e => (e.1.id, e.2)).length := by simp
  rw [Frame.kidIds, hlen]
  exact modify_join _ _ _ _ _

theorem childId_widen (g : Frame LocalId K d) (s : K) (r : SepTree LocalId K d) (hole : LocalId) :
    childId ((widen g s r).kidIds hole).1 ((widen g s r).kidIds hole).2 g.before.length = hole ∧
    childId ((widen g s r).kidIds hole).1 ((widen g s r).kidIds hole).2 (g.before.length + 1) =
      r.id ∧
    ((widen g s r).kidIds hole).2[g.before.length]? = some (s, r.id) := by
  have hlen : g.before.length = (g.before.map fun e => (e.1.id, e.2)).length := by simp
  have hget : ((widen g s r).kidIds hole).2[g.before.length]? = some (s, r.id) := by
    rw [Frame.kidIds, hlen]
    exact getElem?_join _ _ _ _
  refine ⟨?_, ?_, hget⟩
  · rw [Frame.kidIds, hlen]
    exact childId_join _ _ _
  · rw [childId, List.getD_eq_getElem?_getD, List.getElem?_map, hget]
    rfl

end Siblings

section Remove

variable {V K : Type} {Q : Prop} [NodeCodec V K] [LinearOrder K] {t : BpTree} {kinds : List Nat}
  {w : World V} {batch : List (Write V)} {old : List (Id × V)}

omit [LinearOrder K] in
theorem load_tree [DecidableEq V] {d : Nat} {T : SepTree LocalId K d}
    (h : Holds w.store (T.cells (layout V t.tenant))) :
    (t.load T.id).runIn w = (.ok (nodeBody T), w) := by
  rw [cells_eq] at h
  exact load_eq (h _ List.mem_cons_self)

def rebalancePair (t : BpTree) {d : Nat} (g : Frame LocalId K d) (sep : K)
    (l r : SepTree LocalId K d) : List (Write V) × Rebalanced K :=
  match t.merge sep (nodeBody l) (nodeBody r) with
  | some merged => ([t.put l.id merged, t.removeNode r.id],
      .parentPending g.id (.internal (g.kidIds l.id).1 (g.kidIds l.id).2))
  | none =>
    let (newLeft, newRight, newSep) := redistribute sep (nodeBody l) (nodeBody r)
    ([t.put l.id newLeft, t.put r.id newRight, t.put g.id
      (.internal (g.kidIds l.id).1 ((widen g newSep r).kidIds l.id).2)], .done)

omit [LinearOrder K] in
theorem rebalance_eq [DecidableEq V] {d : Nat} {f g : Frame LocalId K d} {c l r : SepTree LocalId K d} {sep : K}
    (hpair : Pair f c g sep l r)
    (hsib : ∀ x ∈ f.siblings, Holds w.store (x.cells (layout V t.tenant))) :
    (t.rebalance c.id (nodeBody c) ⟨f.id, (f.kidIds c.id).1, (f.kidIds c.id).2,
      f.before.length⟩ : Engine V _).runIn w = (.ok (rebalancePair t g sep l r), w) := by
  obtain ⟨hleft, hright, hget⟩ := childId_widen g sep r l.id
  have hne : ((widen g sep r).kidIds l.id).2.isEmpty = false := by
    cases hE : ((widen g sep r).kidIds l.id).2 with
    | nil => simp [hE] at hget
    | cons e es => rfl
  have hload : (t.loadPair (nodeBody c) (f.before.length == g.before.length) l.id r.id :
      Engine V _).runIn w = (.ok (nodeBody l, nodeBody r), w) := by
    have hidx := hpair.idx
    rcases hpair.side with ⟨h0, rfl⟩ | ⟨hpos, rfl⟩
    · have hmem : r ∈ f.siblings := (hpair.trees.cons_inv).mem_iff.mpr List.mem_cons_self
      rw [BpTree.loadPair, if_pos (by simp; omega)]
      exact Engine.runIn_bind_ok (load_tree (hsib r hmem))
    · have hmem : l ∈ f.siblings :=
        ((hpair.trees.trans (List.Perm.swap _ _ _)).cons_inv).mem_iff.mpr List.mem_cons_self
      rw [BpTree.loadPair, if_neg (by simp; omega)]
      exact Engine.runIn_bind_ok (load_tree (hsib l hmem))
  rw [BpTree.rebalance, hpair.ids, if_neg (by simp [hne]), ← hpair.idx]
  simp only [hleft, hright]
  rw [Engine.runIn_bind_ok hload]
  simp only [hget, rebalancePair, eraseIdx_kidIds, modify_kidIds, ← kidIds_fst, hpair.id]
  cases t.merge sep (nodeBody l) (nodeBody r) with
  | some merged => rfl
  | none => rfl

omit [LinearOrder K] in
-- The cells around a pair. One of the two is the changed child, whose own
-- cell still holds some earlier value `v`.
theorem pair_cells {d : Nat} {f g : Frame LocalId K d} {c l r : SepTree LocalId K d} {sep : K}
    (hpair : Pair f c g sep l r) (tenant : Nat) (v : V) (x : List (Id × V)) :
    ∃ vl vr vf, ((c.id.toId tenant, v) :: (restCells (layout V tenant) c ++
      (f.cells (layout V tenant) c.id ++ x))).Perm
      ((l.id.toId tenant, vl) :: (r.id.toId tenant, vr) :: (f.id.toId tenant, vf) ::
        (restCells (layout V tenant) l ++ restCells (layout V tenant) r ++
          g.siblings.flatMap (SepTree.cells (layout V tenant)) ++ x)) := by
  rcases hpair.siblings with ⟨rfl, hperm⟩ | ⟨rfl, hperm⟩
  · have hsib := hperm.flatMap_right (SepTree.cells (layout V tenant))
    refine ⟨v, NodeCodec.toBytes (nodeBody r),
      NodeCodec.toBytes (.internal (f.kidIds l.id).1 (f.kidIds l.id).2), ?_⟩
    rw [← Multiset.coe_eq_coe] at hsib ⊢
    simp only [List.flatMap_cons, cells_eq, Frame.cells, ← Multiset.coe_add,
      ← Multiset.cons_coe, ← Multiset.singleton_add] at hsib ⊢
    rw [hsib]
    simp only [layout]
    abel
  · have hsib := hperm.flatMap_right (SepTree.cells (layout V tenant))
    refine ⟨NodeCodec.toBytes (nodeBody l), v,
      NodeCodec.toBytes (.internal (f.kidIds r.id).1 (f.kidIds r.id).2), ?_⟩
    rw [← Multiset.coe_eq_coe] at hsib ⊢
    simp only [List.flatMap_cons, cells_eq, Frame.cells, ← Multiset.coe_add,
      ← Multiset.cons_coe, ← Multiset.singleton_add] at hsib ⊢
    rw [hsib]
    simp only [layout]
    abel

-- The state of the walk up: below the path stands `c`, whose own cell is
-- still to be written and which may be underfull. `Q` is whatever the sizes of
-- the nodes depend on.
structure Climb (Q : Prop) (t : BpTree) (kinds : List Nat) (w : World V) (batch : List (Write V)) (old : List (Id × V))
    {d n : Nat} (p : Path LocalId K d n) (c : SepTree LocalId K d) : Prop where
  root : (p.plug c).id = t.root
  filled : Q → p.Filled t.caps ∧ c.KidsFilled t.caps ∧ c.size ≤ t.caps.at d
  sorted : (p.pre ++ c.flat ++ p.post).Pairwise (· < ·)
  held : Holds w.store (p.cells (layout V t.tenant) c.id)
  planned : ∃ v, Planned t.tenant kinds w w batch old
    ((c.id.toId t.tenant, v) :: (restCells (layout V t.tenant) c ++
      p.cells (layout V t.tenant) c.id))

def Removed (Q : Prop) (t : BpTree) (kinds : List Nat) (w : World V) (old : List (Id × V)) (keys : List K)
    (r : Outcome Error (BpTree × List (Write V)) × World V) : Prop :=
  ∃ (n : Nat) (T : SepTree LocalId K n) (batch : List (Write V)),
    r = (.ok ({ t with root := T.id }, batch), w) ∧
    Planned t.tenant kinds w w batch old (T.cells (layout V t.tenant)) ∧
    T.flat.Pairwise (· < ·) ∧ (Q → T.RootFilled t.caps) ∧ T.keys = keys

theorem Climb.put {d n : Nat} {p : Path LocalId K d n} {c : SepTree LocalId K d}
    (h : Climb Q t kinds w batch old p c) (hfits : Q → p.Fits t.caps c) :
    Removed Q t kinds w old (SepTree.itemKeys p.pre ++ c.keys ++ SepTree.itemKeys p.post)
      (.ok (t, batch ++ [t.put c.id (nodeBody c)]), w) := by
  obtain ⟨v, hplan⟩ := h.planned
  refine ⟨n, p.plug c, _, by rw [h.root], ?_, ?_, fun hq => ?_, ?_⟩
  · have hcells := p.cells_plug (layout V t.tenant) c
    rw [cells_eq t.tenant c] at hcells
    exact (hplan.put _).perm hcells.symm
  · rw [p.flat_plug]
    exact h.sorted
  · exact (p.rootFilled_plug t.caps c).mpr ⟨hfits hq, (h.filled hq).1⟩
  · rw [← SepTree.itemKeys_flat, p.flat_plug, SepTree.itemKeys_append, SepTree.itemKeys_append,
      SepTree.itemKeys_flat]

omit [LinearOrder K] in
theorem rootFilled_of_filled {c : Caps} {d : Nat} {T : SepTree LocalId K d} (hcap : 4 ≤ c.inner)
    (h : T.Filled c) : T.RootFilled c := by
  obtain ⟨⟨hmin, hmax⟩, hkids⟩ := (T.filled_iff c).mp h
  refine ⟨hmax, fun hd => ?_, hkids⟩
  obtain ⟨d, rfl⟩ := Nat.exists_eq_succ_of_ne_zero (Nat.ne_of_gt hd)
  have hinner : c.inner / 4 ≤ T.size := hmin
  omega

theorem finishAtRoot_spec (hQ : Q → t.Roomy) : {n : Nat} → {c : SepTree LocalId K n} →
    Climb Q t kinds w batch old .nil c →
    Removed Q t kinds w old c.keys (.ok (t.finishAtRoot batch c.id (nodeBody c)), w)
  | 0, .leaf id keys, h => by
      have hput := h.put fun hq =>
        ⟨(h.filled hq).2.2, fun hd => absurd hd (Nat.lt_irrefl 0), trivial⟩
      simp only [Path.pre, Path.post, SepTree.itemKeys_nil, List.nil_append, List.append_nil] at hput
      exact hput
  | n + 1, .node id first rest, h => by
      cases rest with
      | nil =>
        obtain ⟨v, hplan⟩ := h.planned
        have hfirst : Q → first.RootFilled t.caps := fun hq =>
          rootFilled_of_filled (hQ hq).2 (h.filled hq).2.1.1
        refine ⟨n, first, _, rfl, ?_, ?_, hfirst, by simp [SepTree.keys]⟩
        · have hfree := hplan.free bptreeNodeStructHash
          refine hfree.perm ?_
          simp [restCells, SepTree.kidCells, Path.cells]
        · simpa [Path.pre, Path.post] using h.sorted
      | cons e rest =>
        have hput := h.put fun hq =>
          ⟨(h.filled hq).2.2, fun _ => by simp, (h.filled hq).2.1⟩
        simp only [Path.pre, Path.post, SepTree.itemKeys_nil, List.nil_append,
          List.append_nil] at hput
        exact hput

omit [LinearOrder K] in
theorem fill_cells {d : Nat} (g : Frame LocalId K d) (m : SepTree LocalId K d) (tenant : Nat) (vf : V)
    (x : List (Id × V)) :
    ((m.id.toId tenant, NodeCodec.toBytes (nodeBody m)) :: (g.id.toId tenant, vf) ::
      (restCells (layout V tenant) m ++ g.siblings.flatMap (SepTree.cells (layout V tenant)) ++ x)).Perm
      ((g.id.toId tenant, vf) :: (restCells (layout V tenant) (g.fill m) ++ x)) := by
  have hkids := g.kidCells_join (layout V tenant) m
  rw [cells_eq] at hkids
  refine (List.Perm.swap _ _ _).trans (List.Perm.cons _ ?_)
  exact (hkids.symm.append_right x)

theorem Climb.sorted_pair {d n : Nat} {f g : Frame LocalId K d} {p : Path LocalId K (d + 1) n}
    {c l r : SepTree LocalId K d} {sep : K} (h : Climb Q t kinds w batch old (.cons f p) c)
    (hpair : Pair f c g sep l r) :
    ((p.pre ++ g.pre) ++ (l.flat ++ sepItem sep :: r.flat) ++ (g.post ++ p.post)).Pairwise
      (· < ·) := by
  have hflat := hpair.flat
  have hs := h.sorted
  simp only [Path.pre, Path.post] at hs
  have heq : p.pre ++ f.pre ++ c.flat ++ (f.post ++ p.post) =
      p.pre ++ (f.pre ++ c.flat ++ f.post) ++ p.post := by simp
  rw [heq, hflat] at hs
  simpa using hs

theorem Climb.parent {d n : Nat} {f : Frame LocalId K d} {p : Path LocalId K (d + 1) n}
    {c : SepTree LocalId K d} {x : SepTree LocalId K (d + 1)} {batch' : List (Write V)}
    {cells : List (Id × V)} {u : V} (h : Climb Q t kinds w batch old (.cons f p) c) (hid : x.id = f.id)
    (hfill : Q → x.KidsFilled t.caps ∧ x.size ≤ f.size)
    (hsorted : (p.pre ++ x.flat ++ p.post).Pairwise (· < ·))
    (hplan : Planned t.tenant kinds w w batch' old cells)
    (hcells : cells.Perm ((f.id.toId t.tenant, u) :: (restCells (layout V t.tenant) x ++
      p.cells (layout V t.tenant) f.id))) : Climb Q t kinds w batch' old p x := by
  refine ⟨(p.id_plug x (f.fill c) hid).trans h.root, fun hq => ?_, hsorted, ?_, ?_⟩
  · have hpath := (h.filled hq).1
    exact ⟨hpath.2.2, (hfill hq).1, (hfill hq).2.trans hpath.2.1.2⟩
  · rw [hid]
    exact (holds_append.mp h.held).2
  · rw [hid]
    exact ⟨u, hplan.perm hcells⟩

theorem Climb.merge {d n : Nat} {f g : Frame LocalId K d} {p : Path LocalId K (d + 1) n}
    {c l r : SepTree LocalId K d} {sep : K} (h : Climb Q t kinds w batch old (.cons f p) c)
    (hpair : Pair f c g sep l r) (hfill : Q → (mergeTree sep l r).Filled t.caps) :
    Climb Q t kinds w (batch ++ [t.put l.id (nodeBody (mergeTree sep l r)), t.removeNode r.id]) old p
      (g.fill (mergeTree sep l r)) := by
  obtain ⟨v, hplan⟩ := h.planned
  obtain ⟨vl, vr, vf, hcells⟩ := pair_cells hpair t.tenant v (p.cells (layout V t.tenant) f.id)
  have hnew := fill_cells g (mergeTree sep l r) t.tenant vf (p.cells (layout V t.tenant) f.id)
  rw [id_mergeTree, restCells_mergeTree, hpair.id] at hnew
  have hput := ((hplan.perm hcells).put (NodeCodec.toBytes (nodeBody (mergeTree sep l r)))).perm
    (List.Perm.swap _ _ _)
  have hfree := hput.free bptreeNodeStructHash
  rw [List.append_assoc] at hfree
  refine h.parent hpair.id (fun hq => ⟨?_, ?_⟩) ?_ hfree hnew
  · obtain ⟨hpath, hkids, -⟩ := h.filled hq
    exact (g.kidsFilled_fill t.caps _).mpr ⟨hfill hq, (hpair.filled hkids hpath.1).2.2⟩
  · rw [g.size_fill, hpair.size]
    exact Nat.le_succ _
  · refine (h.sorted_pair hpair).sublist ?_
    rw [g.flat_fill]
    simp only [List.append_assoc]
    exact ((((flat_mergeTree sep l r).append_right _).append_left _).append_left _).trans
      (by simp)

theorem Climb.even {d n : Nat} {f g : Frame LocalId K d} {p : Path LocalId K (d + 1) n}
    {c l r l' r' : SepTree LocalId K d} {sep sep' : K} (h : Climb Q t kinds w batch old (.cons f p) c)
    (hpair : Pair f c g sep l r) (heven : Evened t.caps sep l r sep' l' r')
    (hfill : Q → l'.Filled t.caps ∧ r'.Filled t.caps) :
    Climb Q t kinds w (batch ++ [t.put l.id (nodeBody l'), t.put r.id (nodeBody r')]) old p
      ((widen g sep' r').fill l') := by
  obtain ⟨v, hplan⟩ := h.planned
  obtain ⟨vl, vr, vf, hcells⟩ := pair_cells hpair t.tenant v (p.cells (layout V t.tenant) f.id)
  have hsib := siblings_widen g sep' r'
  have hputs := (((hplan.perm hcells).put (NodeCodec.toBytes (nodeBody l'))).perm
    (List.Perm.swap _ _ _)).put (NodeCodec.toBytes (nodeBody r'))
  rw [List.append_assoc] at hputs
  refine h.parent hpair.id (fun hq => ⟨?_, ?_⟩) ?_ hputs (u := vf) ?_
  · obtain ⟨hpath, hkids, -⟩ := h.filled hq
    refine (Frame.kidsFilled_fill t.caps _ _).mpr ⟨(hfill hq).1, fun x hx => ?_⟩
    rcases List.mem_cons.mp (hsib.mem_iff.mp hx) with rfl | hx
    · exact (hfill hq).2
    · exact (hpair.filled hkids hpath.1).2.2 x hx
  · rw [Frame.size_fill, hpair.size]
    exact le_rfl
  · have hs := heven.sorted _ _ (h.sorted_pair hpair)
    rw [Frame.flat_fill, pre_widen, post_widen]
    simpa using hs
  · have hnew := fill_cells (widen g sep' r') l' t.tenant vf (p.cells (layout V t.tenant) f.id)
    have hsibs := hsib.flatMap_right (SepTree.cells (layout V t.tenant))
    have hrest := congrArg (fun x : List (Id × V) => (x : Multiset (Id × V)))
      (heven.cells (layout V t.tenant))
    rw [show (widen g sep' r').id = f.id from hpair.id, heven.left_id] at hnew
    refine List.Perm.trans ?_ hnew
    rw [← Multiset.coe_eq_coe] at hsibs ⊢
    simp only [List.flatMap_cons, cells_eq, heven.right_id, ← Multiset.coe_add,
      ← Multiset.cons_coe, ← Multiset.singleton_add] at hsibs hrest ⊢
    rw [hsibs, ← hrest]
    abel

omit [LinearOrder K] in
theorem isUnderfull_nodeBody : {d : Nat} → (c : SepTree LocalId K d) →
    (t.isUnderfull (nodeBody c) = true ↔ c.size < t.caps.at d / 4)
  | 0, .leaf _ _ => by simp [BpTree.isUnderfull, nodeBody, Caps.at, BpTree.caps]
  | _ + 1, .node _ _ _ => by simp [BpTree.isUnderfull, nodeBody, Caps.at, BpTree.caps]

omit [LinearOrder K] in
theorem nodeBody_fill {d : Nat} (g : Frame LocalId K d) (x : SepTree LocalId K d) :
    nodeBody (g.fill x) = .internal (g.kidIds x.id).1 (g.kidIds x.id).2 := by
  rw [Frame.kidIds_eq]
  rfl

omit [LinearOrder K] in
theorem Pair.keys {d : Nat} {f g : Frame LocalId K d} {c l r : SepTree LocalId K d} {sep : K}
    (h : Pair f c g sep l r) : SepTree.itemKeys f.pre ++ c.keys ++ SepTree.itemKeys f.post =
      SepTree.itemKeys g.pre ++ (l.keys ++ r.keys) ++ SepTree.itemKeys g.post := by
  have hk := congrArg SepTree.itemKeys h.flat
  simpa only [SepTree.itemKeys_append, SepTree.itemKeys_sep, SepTree.itemKeys_flat] using hk

omit [LinearOrder K] in
theorem Pair.sizes {d : Nat} {f g : Frame LocalId K d} {c l r : SepTree LocalId K d} {sep : K}
    {cap : Caps} (h : Pair f c g sep l r) (hsib : ∀ x ∈ f.siblings, x.Filled cap) :
    c.size + cap.at d / 4 ≤ l.size + r.size ∧ l.size + r.size ≤ c.size + cap.at d := by
  rcases h.siblings with ⟨rfl, hp⟩ | ⟨rfl, hp⟩
  · have hr := ((r.filled_iff cap).mp (hsib r (hp.mem_iff.mpr List.mem_cons_self))).1
    omega
  · have hl := ((l.filled_iff cap).mp (hsib l (hp.mem_iff.mpr List.mem_cons_self))).1
    omega

omit [LinearOrder K] in
theorem le_pairSize : {d : Nat} → (l r : SepTree LocalId K d) →
    l.size + r.size ≤ pairSize l r
  | 0, _, _ => Nat.le_refl _
  | _ + 1, _, _ => Nat.le_succ _

omit [LinearOrder K] in
theorem frame_size_pos {d n : Nat} {c : Caps} (hcap : 4 ≤ c.inner) {f : Frame LocalId K d}
    {p : Path LocalId K (d + 1) n} (h : (Path.cons f p).Filled c) : 0 < f.size := by
  have hmin := h.2.1.1
  cases p with
  | nil => exact hmin
  | cons f' p =>
    simp only [Path.minSize] at hmin
    omega

theorem Climb.lone {d n : Nat} {f : Frame LocalId K d} {p : Path LocalId K (d + 1) n}
    {c : SepTree LocalId K d} (hQ : Q → t.Roomy) (h : Climb Q t kinds w batch old (.cons f p) c)
    (hf : f.size = 0) :
    Climb Q t kinds w (batch ++ [t.put c.id (nodeBody c)]) old p (f.fill c) := by
  obtain ⟨v, hplan⟩ := h.planned
  refine h.parent rfl (fun hq => ?_) ?_ (hplan.put _) (u := NodeCodec.toBytes
    (NodeBody.internal (f.kidIds c.id).1 (f.kidIds c.id).2)) ?_
  · exact absurd hf (frame_size_pos (hQ hq).2 (h.filled hq).1).ne'
  · have hs := h.sorted
    simp only [Path.pre, Path.post] at hs
    rw [f.flat_fill]
    simpa using hs
  · refine List.Perm.trans ?_ (fill_cells f c t.tenant _ _)
    refine List.Perm.cons _ ?_
    simp only [Path.cells, Frame.cells, List.cons_append, List.append_assoc]
    exact List.perm_middle

theorem rebalance_lone {d : Nat} {f : Frame LocalId K d} (c : SepTree LocalId K d)
    (hf : f.size = 0) :
    (t.rebalance c.id (nodeBody c) ⟨f.id, (f.kidIds c.id).1, (f.kidIds c.id).2,
      f.before.length⟩ : Engine V _) = pure ([t.put c.id (nodeBody c)],
        .parentPending f.id (nodeBody (f.fill c))) := by
  have hnil : (f.kidIds c.id).2 = [] := by
    rw [Frame.kidIds_eq, List.map_eq_nil_iff, ← List.length_eq_zero_iff, length_join]
    exact hf
  rw [nodeBody_fill, BpTree.rebalance, hnil]
  rfl

-- The walk up, by induction on what is above the changed node.
theorem removeUp_spec [DecidableEq V] (hQ : Q → t.Roomy) :
    {d n : Nat} → (p : Path LocalId K d n) → (c : SepTree LocalId K d) → (batch : List (Write V)) →
    Climb Q t kinds w batch old p c →
    Removed Q t kinds w old (SepTree.itemKeys p.pre ++ c.keys ++ SepTree.itemKeys p.post)
      ((t.removeUp (frames p c.id) c.id (nodeBody c) batch).runIn w)
  | d, _, .nil, c, batch, h => by
      have hroot := finishAtRoot_spec hQ h
      simp only [Path.pre, Path.post, SepTree.itemKeys_nil, List.nil_append, List.append_nil]
      exact hroot
  | d, n, .cons f p, c, batch, h => by
      rw [frames, BpTree.removeUp]
      by_cases hunder : t.isUnderfull (nodeBody c) = true
      · rw [if_pos hunder]
        rw [isUnderfull_nodeBody] at hunder
        rcases Nat.eq_zero_or_pos f.size with hlone | hpos
        · have hup := removeUp_spec hQ p _ _ (h.lone hQ hlone)
          have hkeys : SepTree.itemKeys (Path.cons f p).pre ++ c.keys ++
              SepTree.itemKeys (Path.cons f p).post = SepTree.itemKeys p.pre ++
                (f.fill c).keys ++ SepTree.itemKeys p.post := by
            rw [← SepTree.itemKeys_flat (f.fill c), f.flat_fill]
            simp [Path.pre, Path.post, SepTree.itemKeys_flat]
          rw [rebalance_lone c hlone, hkeys]
          exact hup
        obtain ⟨g, sep, l, r, hpair⟩ := exists_pair f c hpos
        have hheld : ∀ x ∈ f.siblings, Holds w.store (x.cells (layout V t.tenant)) :=
          fun x hx cell hcell => (holds_append.mp h.held).1 cell
            (List.mem_cons_of_mem _ (List.mem_flatMap.mpr ⟨x, hx, hcell⟩))
        have hle := le_pairSize l r
        have hkeys : SepTree.itemKeys (Path.cons f p).pre ++ c.keys ++
            SepTree.itemKeys (Path.cons f p).post = SepTree.itemKeys p.pre ++
              (SepTree.itemKeys g.pre ++ (l.keys ++ r.keys) ++ SepTree.itemKeys g.post) ++
              SepTree.itemKeys p.post := by
          rw [← hpair.keys]
          simp [Path.pre, Path.post]
        -- How the pair is filled, and how much the two hold together.
        have hboth : Q → (l.KidsFilled t.caps ∧ r.KidsFilled t.caps) ∧
            c.size + t.caps.at d / 4 ≤ l.size + r.size ∧ l.size + r.size ≤ c.size + t.caps.at d := by
          intro hq
          obtain ⟨hpath, hkids, -⟩ := h.filled hq
          obtain ⟨hl, hr, -⟩ := hpair.filled hkids hpath.1
          exact ⟨⟨hl, hr⟩, hpair.sizes hpath.1⟩
        rw [Engine.runIn_bind_ok (rebalance_eq hpair hheld), rebalancePair, merge_eq, hkeys]
        by_cases hfit : pairSize l r ≤ t.caps.at d * 3 / 4
        · -- Merged: the parent is one child short, and the walk goes on with it.
          have hfill : Q → (mergeTree sep l r).Filled t.caps := by
            intro hq
            obtain ⟨⟨hl, hr⟩, hmin, hmax⟩ := hboth hq
            rw [SepTree.filled_iff, size_mergeTree]
            exact ⟨⟨by omega, by omega⟩, kidsFilled_mergeTree sep l r hl hr⟩
          have hup := removeUp_spec hQ p _ _ (h.merge hpair hfill)
          rw [nodeBody_fill, id_mergeTree, ← SepTree.itemKeys_flat, Frame.flat_fill,
            SepTree.itemKeys_append, SepTree.itemKeys_append, SepTree.itemKeys_flat, keys_mergeTree,
            Frame.id_fill, hpair.id] at hup
          simp only [if_pos hfit, hpair.id]
          exact hup
        · -- Evened: the parent keeps its size, and the walk ends there.
          obtain ⟨sep', l', r', heven⟩ := exists_evened (c := t.caps) sep l r (by omega) (by omega)
          have hfill : Q → l'.Filled t.caps ∧ r'.Filled t.caps := by
            intro hq
            obtain ⟨⟨hl, hr⟩, hmin, hmax⟩ := hboth hq
            exact heven.filled hl hr (by omega)
          have hput := (h.even hpair heven hfill).put fun hq =>
            (Path.fits_fill t.caps p _ _).mpr
              ⟨(Frame.kidsFilled_fill t.caps _ _).mp
                ((h.even hpair heven hfill).filled hq).2.1, by
                rw [size_widen, ← hpair.size]; exact (h.filled hq).1.2.1⟩
          have hflat : SepTree.itemKeys ((widen g sep' r').fill l').flat =
              SepTree.itemKeys g.pre ++ (l.keys ++ r.keys) ++ SepTree.itemKeys g.post := by
            rw [Frame.flat_fill, pre_widen, post_widen, ← heven.keys]
            simp [SepTree.itemKeys_flat]
          rw [nodeBody_fill, heven.left_id, ← SepTree.itemKeys_flat, hflat,
            kidIds_widen_congr g sep' heven.right_id, ← kidIds_fst,
            List.append_assoc batch] at hput
          simp only [if_neg hfit, heven.bodies]
          exact hput
      · rw [if_neg hunder]
        rw [isUnderfull_nodeBody] at hunder
        refine h.put fun hq => ?_
        obtain ⟨-, hkids, hsize⟩ := h.filled hq
        exact (c.filled_iff t.caps).mpr ⟨⟨by omega, hsize⟩, hkids⟩

theorem Around.ne {n : Nat} {q : Path LocalId K 0 n} {target k : K} (h : Around q target)
    (hk : k ∈ SepTree.itemKeys q.pre ∨ k ∈ SepTree.itemKeys q.post) : k ≠ target := by
  rcases hk with hk | hk
  · exact (keyItem_lt_keyItem.mp (h.pre _ (SepTree.mem_itemKeys.mp hk))).ne
  · exact (keyItem_lt_keyItem.mp (h.post _ (SepTree.mem_itemKeys.mp hk))).ne'

-- The removal plan of a tree that is in order: `none` for an absent key, and
-- otherwise writes that carry the tree to one in order without the key.
theorem planRemove_sorted [DecidableEq V] (kinds : List Nat) {n : Nat} {T : SepTree LocalId K n}
    (hroot : T.id = t.root) (hs : T.flat.Pairwise (· < ·)) (target : K)
    (hheld : Holds w.store (T.cells (layout V t.tenant)))
    (hnodup : (addrs (T.cells (layout V t.tenant))).Nodup) :
    (target ∉ T.keys ∧ Engine.Returns (fun fuel => t.planRemove fuel target) w (t, none) w) ∨
    (target ∈ T.keys ∧ ∃ (n' : Nat) (T' : SepTree LocalId K n') (batch : List (Write V)),
      Engine.Returns (fun fuel => t.planRemove fuel target) w
        ({ t with root := T'.id }, some batch) w ∧
      Planned t.tenant kinds w w batch (T.cells (layout V t.tenant))
        (T'.cells (layout V t.tenant)) ∧
      T'.flat.Pairwise (· < ·) ∧ (t.Roomy → T.RootFilled t.caps → T'.RootFilled t.caps) ∧
      ∀ k, k ∈ T'.keys ↔ k ≠ target ∧ k ∈ T.keys) := by
  obtain ⟨id, keys, a, b, q, rfl, haround, ha, hb, hkeys, hrun⟩ :=
    descend_root hroot hs target hheld
  have hleft : ∀ k ∈ a, k ≠ target := fun k hk => (ha k hk).ne
  have hright : ∀ k ∈ b, k ≠ target := fun k hk => (hb k hk).ne'
  have hpre : ∀ k ∈ SepTree.itemKeys q.pre, k ≠ target := fun k hk => haround.ne (.inl hk)
  have hpost : ∀ k ∈ SepTree.itemKeys q.post, k ≠ target := fun k hk => haround.ne (.inr hk)
  rcases hkeys with rfl | rfl
  · refine .inr ⟨by rw [keys_plug_leaf]; simp, ?_⟩
    have herase : (a ++ target :: b).eraseIdx a.length = a ++ b := by
      rw [List.eraseIdx_append_of_length_le le_rfl, Nat.sub_self]
      rfl
    have hclimb : Climb (t.Roomy ∧ (q.plug (.leaf id (a ++ target :: b))).RootFilled t.caps) t kinds
        w [] ((q.plug (.leaf id (a ++ target :: b))).cells (layout V t.tenant)) q
        (.leaf id (a ++ b)) := by
      have hcells := q.cells_plug (layout V t.tenant) (.leaf id (a ++ target :: b))
      refine ⟨(q.id_plug (.leaf id (a ++ b)) (.leaf id (a ++ target :: b)) rfl).trans hroot,
        fun hq => ?_, ?_, (holds_append.mp (hheld.perm hcells)).2,
        ⟨_, (Planned.refl hheld hnodup).perm hcells⟩⟩
      · obtain ⟨hfits, hpath⟩ := (q.rootFilled_plug t.caps _).mp hq.2
        have hlen := size_le_of_fits hfits
        refine ⟨hpath, trivial, ?_⟩
        simp only [List.length_append, List.length_cons] at hlen
        simp only [SepTree.size_leaf, List.length_append, Caps.at]
        omega
      · rw [q.flat_plug] at hs
        exact hs.sublist (by simp)
    obtain ⟨n', T', batch, hup, hplan, hs', hfilled, hkeys⟩ := removeUp_spec And.left q _ _ hclimb
    refine ⟨n', T', batch, hrun.bind (.of_run ?_), hplan, hs', fun hroomy hold => ?_, fun k => ?_⟩
    · simp only [binarySearch_found ha, herase]
      exact Engine.runIn_bind_ok hup
    · exact hfilled ⟨hroomy, hold⟩
    · rw [hkeys, keys_plug_leaf]
      simp only [SepTree.keys, List.mem_append, List.mem_cons]
      grind
  · refine .inl ⟨fun hk => ?_, hrun.bind (.of_run ?_)⟩
    · rw [keys_plug_leaf] at hk
      simp only [List.mem_append] at hk
      grind
    · simp only [binarySearch_missing ha hb]
      rfl

theorem planRemove_spec [DecidableEq V] (hleaf : 4 ≤ t.leafCap) (hcap : 4 ≤ t.internalCap)
    {n : Nat} {T : SepTree LocalId K n} (hT : Shape t T) (target : K)
    (hheld : Holds w.store (T.cells (layout V t.tenant)))
    (hnodup : (addrs (T.cells (layout V t.tenant))).Nodup) :
    (target ∉ T.keys ∧ Engine.Returns (fun fuel => t.planRemove fuel target) w (t, none) w) ∨
    (target ∈ T.keys ∧ ∃ (n' : Nat) (T' : SepTree LocalId K n') (batch : List (Write V)),
      Engine.Returns (fun fuel => t.planRemove fuel target) w
        ({ t with root := T'.id }, some batch) w ∧
      Planned t.tenant kinds w w batch (T.cells (layout V t.tenant))
        (T'.cells (layout V t.tenant)) ∧
      Shape { t with root := T'.id } T' ∧ ∀ k, k ∈ T'.keys ↔ k ≠ target ∧ k ∈ T.keys) := by
  rcases planRemove_sorted kinds hT.root hT.sorted target hheld hnodup with
    habsent | ⟨hmem, n', T', batch, hrun, hplan, hs, hfilled, hkeys⟩
  · exact .inl habsent
  · exact .inr ⟨hmem, n', T', batch, hrun, hplan,
      ⟨rfl, hs, hfilled ⟨hleaf, hcap⟩ hT.filled⟩, hkeys⟩

end Remove

end WaveDb.Index
