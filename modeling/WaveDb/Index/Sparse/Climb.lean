import WaveDb.Index.Sparse
import WaveDb.Lib.RunTree
import WaveDb.Lib.SepTree

namespace WaveDb.Index

open WaveDb.Lib WaveDb.Core

def laneLower (laneHash : Nat) : Nat := (LocalId.new 0 true (typeSalt laneHash)).lower

section Nodes

variable {K : Type} {d : Nat}

def branch (label : LocalId × List (Slot K)) : Option (Branch K) :=
  label.2.head?.map fun slot => ⟨slot.first, label.1, (label.2.map Slot.count).sum⟩

def branches (labels : List (LocalId × List (Slot K))) : List (Branch K) := labels.filterMap branch

def sparseNode : {d : Nat} → RunTree LocalId (Slot K) d → SparseNode K
  | 0, .leaf _ slots => .leaf slots
  | _ + 1, .node _ kids => .internal (branches (kids.map RunTree.label))

@[simp] theorem branches_append (a b : List (LocalId × List (Slot K))) :
    branches (a ++ b) = branches a ++ branches b := List.filterMap_append

theorem branches_singleton (label : LocalId × List (Slot K)) :
    branches [label] = (branch label).toList := by
  simp only [branches, List.filterMap_cons, List.filterMap_nil]
  cases branch label <;> rfl

theorem exists_branch (label : LocalId × List (Slot K)) (h : label.2 ≠ []) :
    ∃ b, branch label = some b := by
  obtain ⟨id, slots⟩ := label
  cases slots with
  | nil => exact absurd rfl h
  | cons slot slots => exact ⟨_, rfl⟩

theorem branch_eq {label : LocalId × List (Slot K)} {first : K}
    (h : label.2.head?.map Slot.first = some first) :
    branch label = some ⟨first, label.1, (label.2.map Slot.count).sum⟩ := by
  obtain ⟨slot, hslot, rfl⟩ := Option.map_eq_some_iff.mp h
  simp [branch, hslot]

theorem branches_split {labels : List (LocalId × List (Slot K))} (h : ∀ l ∈ labels, l.2 ≠ [])
    (m : Nat) : branches (labels.take m) = (branches labels).take m ∧
      branches (labels.drop m) = (branches labels).drop m := by
  induction labels generalizing m with
  | nil => simp [branches]
  | cons label labels ih =>
    obtain ⟨b, hb⟩ := exists_branch label (h label List.mem_cons_self)
    have ih := ih (fun l hl => h l (List.mem_cons_of_mem _ hl))
    cases m with
    | zero => simp [branches]
    | succ m =>
      have hcons : branches (label :: labels) = b :: branches labels := by simp [branches, hb]
      rw [hcons, List.take_succ_cons, List.drop_succ_cons, List.take_succ_cons,
        List.drop_succ_cons, ← (ih m).1, ← (ih m).2]
      exact ⟨by simp [branches, hb], rfl⟩

theorem length_branches {labels : List (LocalId × List (Slot K))} (h : ∀ l ∈ labels, l.2 ≠ []) :
    (branches labels).length = labels.length := by
  induction labels with
  | nil => rfl
  | cons label labels ih =>
    obtain ⟨b, hb⟩ := exists_branch label (h label List.mem_cons_self)
    have hcons : branches (label :: labels) = b :: branches labels := by simp [branches, hb]
    rw [hcons, List.length_cons, List.length_cons, ih fun l hl => h l (List.mem_cons_of_mem _ hl)]

theorem labels_ne_nil {kids : List (RunTree LocalId (Slot K) d)} (h : ∀ c ∈ kids, c.Full) :
    ∀ l ∈ kids.map RunTree.label, l.2 ≠ [] := by
  intro l hl
  obtain ⟨c, hc, rfl⟩ := List.mem_map.mp hl
  exact (h c hc).flat_ne_nil

theorem len_sparseNode : {d : Nat} → {x : RunTree LocalId (Slot K) d} → x.KidsFull →
    (sparseNode x).len = x.length
  | 0, .leaf _ _, _ => rfl
  | _ + 1, .node _ kids, h => by
      simp [sparseNode, SparseNode.len, length_branches (labels_ne_nil h), RunTree.length]

theorem firstKey_sparseNode : {d : Nat} → {x : RunTree LocalId (Slot K) d} → x.KidsFull →
    (sparseNode x).firstKey = x.flat.head?.map Slot.first
  | 0, .leaf _ _, _ => rfl
  | _ + 1, .node _ [], _ => rfl
  | _ + 1, .node _ (c :: kids), h => by
      have hc := (h c List.mem_cons_self).flat_ne_nil
      cases hflat : c.flat with
      | nil => exact absurd hflat hc
      | cons slot slots =>
        simp [sparseNode, SparseNode.firstKey, branches, branch, RunTree.label, hflat]

theorem sum_branches (labels : List (LocalId × List (Slot K))) :
    ((branches labels).map Branch.count).sum =
      (labels.map fun l => (l.2.map Slot.count).sum).sum := by
  induction labels with
  | nil => rfl
  | cons label labels ih =>
    obtain ⟨id, slots⟩ := label
    cases slots with
    | nil => simpa [branches, branch] using ih
    | cons slot slots => simpa [branches, branch] using ih

theorem total_sparseNode : {d : Nat} → (x : RunTree LocalId (Slot K) d) →
    (sparseNode x).total = (x.flat.map Slot.count).sum
  | 0, .leaf _ _ => rfl
  | _ + 1, .node _ kids => by
      change ((branches (kids.map RunTree.label)).map Branch.count).sum = _
      rw [sum_branches, RunTree.flat_node]
      induction kids with
      | nil => rfl
      | cons c kids ih => simpa [RunTree.label] using ih

theorem splitOffHalf_sparseNode {x : RunTree LocalId (Slot K) d} (h : x.KidsFull)
    (hlen : 2 ≤ x.length) (i j : LocalId) : ∃ first,
      (sparseNode x).splitOffHalf = some (first, sparseNode (x.lower ((x.length + 1) / 2) i),
        sparseNode (x.upper ((x.length + 1) / 2) j)) ∧
      (x.upper ((x.length + 1) / 2) j).flat.head?.map Slot.first = some first := by
  obtain ⟨-, hupper⟩ := RunTree.full_halves (i := i) (j := j) (m := (x.length + 1) / 2) h
    (by omega) (by omega)
  have hkids := ((RunTree.full_iff _).mp hupper).2
  have hfirst := firstKey_sparseNode hkids
  obtain ⟨slot, slots, hslot⟩ := List.exists_cons_of_ne_nil hupper.flat_ne_nil
  refine ⟨slot.first, ?_, by rw [hslot]; rfl⟩
  rw [hslot] at hfirst
  match d, x with
  | 0, .leaf id entries =>
    change (SparseNode.firstKey (.leaf (entries.drop ((entries.length + 1) / 2)))).map _ = _
    change SparseNode.firstKey (.leaf (entries.drop ((entries.length + 1) / 2))) = _ at hfirst
    rw [hfirst]
    rfl
  | d + 1, .node id kids =>
    have hb := length_branches (labels_ne_nil h)
    rw [List.length_map] at hb
    obtain ⟨htake, hdrop⟩ := branches_split (labels_ne_nil h) ((kids.length + 1) / 2)
    have hup : sparseNode ((RunTree.node id kids).upper ((kids.length + 1) / 2) j) =
        .internal ((branches (kids.map RunTree.label)).drop ((kids.length + 1) / 2)) := by
      rw [← hdrop, ← List.map_drop]
      rfl
    have hlow : sparseNode ((RunTree.node id kids).lower ((kids.length + 1) / 2) i) =
        .internal ((branches (kids.map RunTree.label)).take ((kids.length + 1) / 2)) := by
      rw [← htake, ← List.map_take]
      rfl
    change SparseNode.firstKey (sparseNode ((RunTree.node id kids).upper
      ((kids.length + 1) / 2) j)) = _ at hfirst
    rw [hup] at hfirst
    change SparseNode.splitOffHalf (.internal (branches (kids.map RunTree.label))) = _
    rw [SparseNode.splitOffHalf, hb]
    simp only [RunTree.length, hup, hlow, hfirst]
    rfl

end Nodes

section Climb

variable {V K : Type} [LaneCodec V (SparseNode K)] {t : SparseTree} {d n : Nat}

def sparseLayout (V : Type) [LaneCodec V (SparseNode K)] (t : SparseTree) :
    RunTree.Layout LocalId (Slot K) Id V where
  addr id := id.toId t.tenant
  leaf slots := LaneCodec.toBytes t.laneHash (SparseNode.leaf slots)
  node labels := LaneCodec.toBytes t.laneHash (SparseNode.internal (branches labels))

theorem body_sparseLayout : {d : Nat} → (x : RunTree LocalId (Slot K) d) →
    x.body (sparseLayout V t) = LaneCodec.toBytes t.laneHash (sparseNode x)
  | 0, .leaf _ _ => rfl
  | _ + 1, .node _ _ => rfl

def sparseFrames : {d n : Nat} → RunTree.Path LocalId (Slot K) d n →
    LocalId × List (Slot K) → List (SparseFrame K)
  | _, _, .nil, _ => []
  | _, _, .cons f p, hole =>
    ⟨f.id, branches (f.before.map RunTree.label ++ hole :: f.after.map RunTree.label),
      (branches (f.before.map RunTree.label)).length⟩ ::
      sparseFrames p (f.id, f.pre ++ hole.2 ++ f.post)

def Shown : {d n : Nat} → RunTree.Path LocalId (Slot K) d n → List (Slot K) → Prop
  | _, _, .nil, _ => True
  | _, _, .cons _ _, slots => slots ≠ []

theorem shown_of_ne_nil : {d n : Nat} → (p : RunTree.Path LocalId (Slot K) d n) →
    {slots : List (Slot K)} → slots ≠ [] → Shown p slots
  | _, _, .nil, _, _ => trivial
  | _, _, .cons _ _, _, h => h

def RootFull (x : RunTree LocalId (Slot K) d) : Prop := x.KidsFull ∧ (0 < d → x.length ≠ 0)

theorem runIn_mintLaneId [DecidableEq V] (laneHash : Nat) (w : World V) :
    (mintLaneId laneHash : Engine V LocalId).runIn w =
      (.ok ⟨w.clock 0, laneLower laneHash⟩, w.tick) := rfl

-- A node within capacity stays; a larger one leaves its upper half to a new id.
theorem splitSibling_run [DecidableEq V] (hcap : 1 ≤ t.cap) {x : RunTree LocalId (Slot K) d} (hx : x.KidsFull)
    (w : World V) (writes : List (Write V)) :
    (t.splitSibling (sparseNode x) writes).runIn w = (.ok (sparseNode x, none, writes), w) ∨
    ∃ (m : Nat) (b : Branch K),
      (x.lower m x.id).Full ∧ (x.upper m ⟨w.clock 0, laneLower t.laneHash⟩).Full ∧
      branch (x.upper m ⟨w.clock 0, laneLower t.laneHash⟩).label = some b ∧
      (t.splitSibling (sparseNode x) writes).runIn w =
        (.ok (sparseNode (x.lower m x.id), some b, writes ++ [t.put ⟨w.clock 0, laneLower t.laneHash⟩
          (sparseNode (x.upper m ⟨w.clock 0, laneLower t.laneHash⟩))]), w.tick) := by
  rw [SparseTree.splitSibling, len_sparseNode hx]
  by_cases hfit : x.length ≤ t.cap
  · exact .inl (by rw [if_pos hfit]; rfl)
  · obtain ⟨first, hsplit, hfirst⟩ := splitOffHalf_sparseNode hx (by omega) x.id
      ⟨w.clock 0, laneLower t.laneHash⟩
    obtain ⟨hlower, hupper⟩ := RunTree.full_halves (i := x.id)
      (j := ⟨w.clock 0, laneLower t.laneHash⟩) (m := (x.length + 1) / 2) hx (by omega) (by omega)
    refine .inr ⟨(x.length + 1) / 2, _, hlower, hupper, branch_eq hfirst, ?_⟩
    rw [if_neg hfit, hsplit]
    simp only
    rw [Engine.runIn_bind_ok (runIn_mintLaneId t.laneHash w)]
    rw [total_sparseNode, RunTree.label, RunTree.id_upper]
    rfl

-- The state of the walk up: `x` stands in the hole with its own cell still to
-- be written. Its parent still shows what stood there before.
structure SparseClimb (t : SparseTree) (kinds : List Nat) (w₀ w : World V)
    (writes : List (Write V)) (old : List (Id × V)) {d n : Nat}
    (p : RunTree.Path LocalId (Slot K) d n) (x : RunTree LocalId (Slot K) d)
    (hole : LocalId × List (Slot K)) : Prop where
  root : (p.plug x).id = t.root
  hole_id : hole.1 = x.id
  shown : Shown p hole.2
  path : p.Full
  kids : x.KidsFull
  planned : ∃ v, Planned t.tenant kinds w₀ w writes old ((x.id.toId t.tenant, v) ::
    (x.below (sparseLayout V t) ++ p.cells (sparseLayout V t) hole))

def Reindexed (t : SparseTree) (kinds : List Nat) (w₀ : World V) (old : List (Id × V))
    (slots : List (Slot K)) (r : Outcome Error (List (Write V)) × World V) : Prop :=
  ∃ (n : Nat) (T : RunTree LocalId (Slot K) n) (writes : List (Write V)) (w : World V),
    r = (.ok writes, w) ∧ T.id = t.root ∧ T.flat = slots ∧ RootFull T ∧
    Planned t.tenant kinds w₀ w writes old (T.cells (sparseLayout V t))

variable {kinds : List Nat} {w₀ w : World V} {writes : List (Write V)} {old : List (Id × V)}

omit [LaneCodec V (SparseNode K)] in
theorem exists_restored (L : RunTree.Layout LocalId (Slot K) Id V) :
    {n : Nat} → (x : RunTree LocalId (Slot K) n) → x.KidsFull →
    ∃ (m : Nat) (T : RunTree LocalId (Slot K) m), T.id = x.id ∧ T.flat = x.flat ∧ RootFull T ∧
      T.below L = x.below L ∧ SparseTree.restoreRoot (sparseNode x) = sparseNode T
  | 0, .leaf id slots, _ => ⟨0, .leaf id slots, rfl, rfl, ⟨trivial, fun h => absurd h (by omega)⟩,
      rfl, rfl⟩
  | n + 1, .node id kids, h => by
      cases kids with
      | nil => exact ⟨0, .leaf id [], rfl, rfl, ⟨trivial, fun h => absurd h (by omega)⟩, rfl, rfl⟩
      | cons c kids =>
        obtain ⟨b, hb⟩ := exists_branch c.label (h c List.mem_cons_self).flat_ne_nil
        exact ⟨n + 1, .node id (c :: kids), rfl, rfl, ⟨h, fun _ => by simp [RunTree.length]⟩, rfl,
          by simp [sparseNode, branches, hb, SparseTree.restoreRoot]⟩

theorem SparseClimb.putRoot {x : RunTree LocalId (Slot K) n} {hole : LocalId × List (Slot K)}
    (h : SparseClimb t kinds w₀ w writes old .nil x hole) :
    Reindexed t kinds w₀ old x.flat
      (.ok (writes ++ [t.put t.root (SparseTree.restoreRoot (sparseNode x))]), w) := by
  obtain ⟨v, hplan⟩ := h.planned
  have hid : x.id = t.root := h.root
  obtain ⟨m, T, hTid, hflat, hfull, hbelow, hrestore⟩ := exists_restored (sparseLayout V t) x h.kids
  rw [RunTree.Path.cells, List.append_nil, hid, ← hbelow] at hplan
  refine ⟨m, T, _, w, rfl, hTid.trans hid, hflat, hfull, ?_⟩
  rw [hrestore, RunTree.cells_eq, body_sparseLayout, hTid, hid]
  exact hplan.put _

theorem branch_label {x : RunTree LocalId (Slot K) d} (h : x.KidsFull) :
    branch x.label = (sparseNode x).firstKey.map fun first =>
      ⟨first, x.id, (sparseNode x).total⟩ := by
  rw [firstKey_sparseNode h, total_sparseNode, branch, Option.map_map]
  rfl

theorem sparseNode_lower (m : Nat) (i j : LocalId) : {d : Nat} →
    (x : RunTree LocalId (Slot K) d) → sparseNode (x.lower m i) = sparseNode (x.lower m j)
  | 0, .leaf _ _ => rfl
  | _ + 1, .node _ _ => rfl

theorem SparseClimb.grow (hu : Unused t.tenant kinds w₀) (hk : laneLower t.laneHash ∈ kinds)
    {x : RunTree LocalId (Slot K) n} {hole : LocalId × List (Slot K)} {m : Nat}
    (h : SparseClimb t kinds w₀ w writes old .nil x hole)
    (hlower : (x.lower m x.id).Full)
    (hupper : (x.upper m ⟨w.clock 0, laneLower t.laneHash⟩).Full) :
    SparseClimb t kinds w₀ w.tick.tick
      (writes ++ [t.put ⟨w.clock 0, laneLower t.laneHash⟩
        (sparseNode (x.upper m ⟨w.clock 0, laneLower t.laneHash⟩))] ++
        [t.put ⟨w.tick.clock 0, laneLower t.laneHash⟩ (sparseNode (x.lower m x.id))]) old .nil
      (.node t.root [x.lower m ⟨w.tick.clock 0, laneLower t.laneHash⟩,
        x.upper m ⟨w.clock 0, laneLower t.laneHash⟩]) (t.root, []) := by
  obtain ⟨v, hplan⟩ := h.planned
  have hid : x.id = t.root := h.root
  have hmint := (hplan.mint (LaneCodec.toBytes t.laneHash (sparseNode (x.upper m
    ⟨w.clock 0, laneLower t.laneHash⟩))) hu hk).mint
      (LaneCodec.toBytes t.laneHash (sparseNode (x.lower m x.id))) hu hk
  have hlower' : (x.lower m ⟨w.tick.clock 0, laneLower t.laneHash⟩).Full := by
    match n, x with
    | 0, .leaf _ _ => exact hlower
    | _ + 1, .node _ _ => exact hlower
  refine ⟨rfl, rfl, trivial, trivial, by simp [RunTree.KidsFull, hlower', hupper], v,
    hmint.perm ?_⟩
  rw [hid, ← RunTree.below_halves (sparseLayout V t) m ⟨w.tick.clock 0, laneLower t.laneHash⟩
    ⟨w.clock 0, laneLower t.laneHash⟩ x, ← Multiset.coe_eq_coe]
  simp only [RunTree.below_node, RunTree.Path.cells, List.flatMap_cons, List.flatMap_nil,
    RunTree.cells_eq, body_sparseLayout, RunTree.id_lower, RunTree.id_upper,
    sparseNode_lower m t.root ⟨w.tick.clock 0, laneLower t.laneHash⟩,
    ← Multiset.coe_add, ← Multiset.cons_coe, ← Multiset.singleton_add, RunTree.id_node,
    List.append_nil]
  simp only [sparseLayout, LocalId.toId]
  abel

theorem sparseNode_fill (f : RunTree.Frame LocalId (Slot K) d)
    (ts : List (RunTree LocalId (Slot K) d)) :
    sparseNode (f.fill ts) = .internal (branches (f.before.map RunTree.label) ++
      branches (ts.map RunTree.label) ++ branches (f.after.map RunTree.label)) := by
  simp [RunTree.Frame.fill, sparseNode]

-- The walk moves to the parent once the children `ts` stand in place of the hole.
theorem SparseClimb.parent {f : RunTree.Frame LocalId (Slot K) d}
    {p : RunTree.Path LocalId (Slot K) (d + 1) n} {x : RunTree LocalId (Slot K) d}
    {hole : LocalId × List (Slot K)} {ts : List (RunTree LocalId (Slot K) d)} {w' : World V}
    {writes' : List (Write V)} {cells : List (Id × V)}
    (h : SparseClimb t kinds w₀ w writes old (.cons f p) x hole) (hts : ∀ c ∈ ts, c.Full)
    (hplan : Planned t.tenant kinds w₀ w' writes' old cells)
    (hcells : cells.Perm (ts.flatMap (RunTree.cells (sparseLayout V t)) ++
      (f.cells (sparseLayout V t) hole ++
        p.cells (sparseLayout V t) (f.id, f.pre ++ hole.2 ++ f.post)))) :
    SparseClimb t kinds w₀ w' writes' old p (f.fill ts) (f.id, f.pre ++ hole.2 ++ f.post) := by
  obtain ⟨hsib, hpath⟩ := h.path
  refine ⟨(p.id_plug (f.fill ts) (f.fill [x]) rfl).trans h.root, rfl, shown_of_ne_nil p ?_, hpath,
    (f.kidsFull_fill ts).mpr ⟨hts, hsib⟩,
    (sparseLayout V t).node (f.before.map RunTree.label ++ hole :: f.after.map RunTree.label),
    hplan.perm (hcells.trans ?_)⟩
  · have hne : hole.2 ≠ [] := h.shown
    simp [hne]
  · have hbelow := f.below_fill (sparseLayout V t) ts
    rw [← Multiset.coe_eq_coe] at hbelow ⊢
    simp only [RunTree.Frame.cells, ← Multiset.coe_add, ← Multiset.cons_coe,
      ← Multiset.singleton_add] at hbelow ⊢
    rw [hbelow]
    have haddr : (sparseLayout (K := K) V t).addr f.id = (f.fill ts).id.toId t.tenant := rfl
    rw [haddr]
    abel

theorem SparseClimb.drop {f : RunTree.Frame LocalId (Slot K) d}
    {p : RunTree.Path LocalId (Slot K) (d + 1) n} {x : RunTree LocalId (Slot K) d}
    {hole : LocalId × List (Slot K)}
    (h : SparseClimb t kinds w₀ w writes old (.cons f p) x hole) (hx : x.length = 0) :
    SparseClimb t kinds w₀ w (writes ++ [.remove t.laneHash (x.id.toId t.tenant)]) old p
      (f.fill []) (f.id, f.pre ++ hole.2 ++ f.post) := by
  obtain ⟨v, hplan⟩ := h.planned
  refine h.parent (by simp) (hplan.free t.laneHash) ?_
  have hbelow : x.below (sparseLayout V t) = [] := by
    match d, x with
    | 0, .leaf _ _ => rfl
    | _ + 1, .node _ kids =>
      obtain rfl : kids = [] := List.eq_nil_of_length_eq_zero hx
      rfl
  rw [hbelow]
  exact List.Perm.refl _

theorem SparseClimb.keep {f : RunTree.Frame LocalId (Slot K) d}
    {p : RunTree.Path LocalId (Slot K) (d + 1) n} {x : RunTree LocalId (Slot K) d}
    {hole : LocalId × List (Slot K)}
    (h : SparseClimb t kinds w₀ w writes old (.cons f p) x hole) (hx : x.Full) :
    SparseClimb t kinds w₀ w (writes ++ [t.put x.id (sparseNode x)]) old p
      (f.fill [x]) (f.id, f.pre ++ hole.2 ++ f.post) := by
  obtain ⟨v, hplan⟩ := h.planned
  refine h.parent (by simpa using hx) (hplan.put (LaneCodec.toBytes t.laneHash (sparseNode x))) ?_
  rw [List.flatMap_cons, List.flatMap_nil, List.append_nil, RunTree.cells_eq, body_sparseLayout]
  exact List.Perm.refl _

theorem SparseClimb.split (hu : Unused t.tenant kinds w₀) (hk : laneLower t.laneHash ∈ kinds)
    {f : RunTree.Frame LocalId (Slot K) d} {p : RunTree.Path LocalId (Slot K) (d + 1) n}
    {x : RunTree LocalId (Slot K) d} {hole : LocalId × List (Slot K)} {m : Nat}
    (h : SparseClimb t kinds w₀ w writes old (.cons f p) x hole)
    (hlower : (x.lower m x.id).Full)
    (hupper : (x.upper m ⟨w.clock 0, laneLower t.laneHash⟩).Full) :
    SparseClimb t kinds w₀ w.tick
      (writes ++ [t.put ⟨w.clock 0, laneLower t.laneHash⟩
        (sparseNode (x.upper m ⟨w.clock 0, laneLower t.laneHash⟩))] ++
        [t.put x.id (sparseNode (x.lower m x.id))]) old p
      (f.fill [x.lower m x.id, x.upper m ⟨w.clock 0, laneLower t.laneHash⟩])
      (f.id, f.pre ++ hole.2 ++ f.post) := by
  obtain ⟨v, hplan⟩ := h.planned
  have hput := ((hplan.mint (LaneCodec.toBytes t.laneHash (sparseNode (x.upper m
    ⟨w.clock 0, laneLower t.laneHash⟩))) hu hk).perm (List.Perm.swap _ _ _)).put
      (LaneCodec.toBytes t.laneHash (sparseNode (x.lower m x.id)))
  refine h.parent (by simp [hlower, hupper]) hput ?_
  rw [← RunTree.below_halves (sparseLayout V t) m x.id ⟨w.clock 0, laneLower t.laneHash⟩ x,
    ← Multiset.coe_eq_coe]
  simp only [RunTree.Path.cells, List.flatMap_cons, List.flatMap_nil, RunTree.cells_eq,
    body_sparseLayout, RunTree.id_lower, RunTree.id_upper, ← Multiset.coe_add,
    ← Multiset.cons_coe, ← Multiset.singleton_add, List.append_nil]
  simp only [sparseLayout, LocalId.toId]
  abel

-- The walk up, by induction on what is above the changed node.
theorem climb_spec [DecidableEq V] (hcap : 1 ≤ t.cap) (hu : Unused t.tenant kinds w₀)
    (hk : laneLower t.laneHash ∈ kinds) : {d n : Nat} →
    (p : RunTree.Path LocalId (Slot K) d n) → (x : RunTree LocalId (Slot K) d) →
    (hole : LocalId × List (Slot K)) → (w : World V) → (writes : List (Write V)) →
    SparseClimb t kinds w₀ w writes old p x hole →
    Reindexed t kinds w₀ old (p.pre ++ x.flat ++ p.post)
      ((t.climb (sparseFrames p hole) x.id (sparseNode x) writes).runIn w)
  | _, n, .nil, x, hole, w, writes, h => by
      rw [sparseFrames, SparseTree.climb]
      simp only [RunTree.Path.pre, RunTree.Path.post, List.nil_append, List.append_nil]
      rcases splitSibling_run hcap h.kids w writes with
        hrun | ⟨m, b, hlower, hupper, hb, hrun⟩
      · rw [Engine.runIn_bind_ok hrun]
        exact h.putRoot
      · rw [Engine.runIn_bind_ok hrun]
        have hgrow := (h.grow hu hk hlower hupper).putRoot
        have hkids := (RunTree.full_iff _).mp ((h.grow hu hk hlower hupper).kids
          (x.lower m ⟨w.tick.clock 0, laneLower t.laneHash⟩) List.mem_cons_self)
        rw [RunTree.flat_node, List.flatMap_cons, List.flatMap_cons, List.flatMap_nil,
          List.append_nil, RunTree.flat_halves, List.append_assoc] at hgrow
        have hroot : sparseNode (.node t.root [x.lower m ⟨w.tick.clock 0, laneLower t.laneHash⟩,
            x.upper m ⟨w.clock 0, laneLower t.laneHash⟩]) =
            .internal ((((sparseNode (x.lower m x.id)).firstKey.map fun first =>
              (⟨first, ⟨w.tick.clock 0, laneLower t.laneHash⟩,
                (sparseNode (x.lower m x.id)).total⟩ : Branch K)).toList) ++ [b]) := by
          have hlab := branch_label hkids.2
          rw [RunTree.id_lower, sparseNode_lower m _ x.id] at hlab
          change SparseNode.internal (branches ([(x.lower m _).label] ++ [(x.upper m _).label])) = _
          rw [branches_append, branches_singleton, branches_singleton, hb, hlab]
          rfl
        rw [hroot] at hgrow
        exact hgrow
  | d, n, .cons f p, x, hole, w, writes, h => by
      obtain ⟨b₀, hb₀⟩ := exists_branch hole h.shown
      have hentries : branches (f.before.map RunTree.label ++ hole :: f.after.map RunTree.label) =
          branches (f.before.map RunTree.label) ++ b₀ :: branches (f.after.map RunTree.label) := by
        simp [branches, hb₀]
      rw [sparseFrames, SparseTree.climb]
      cases hfirst : (sparseNode x).firstKey with
      | none =>
        have hflat : x.flat = [] := by
          rw [firstKey_sparseNode h.kids] at hfirst
          simpa using hfirst
        have hup := climb_spec hcap hu hk p _ _ w _
          (h.drop ((RunTree.flat_eq_nil_iff h.kids).mp hflat))
        rw [sparseNode_fill, f.flat_fill] at hup
        simp only [RunTree.Path.pre, RunTree.Path.post, hflat]
        rw [hentries, List.eraseIdx_append_of_length_le le_rfl, Nat.sub_self]
        simpa [branches] using hup
      | some first =>
        have hfull : x.Full := by
          refine (RunTree.full_iff x).mpr ⟨fun hzero => ?_, h.kids⟩
          rw [firstKey_sparseNode h.kids, (RunTree.flat_eq_nil_iff h.kids).mpr hzero] at hfirst
          cases hfirst
        rcases splitSibling_run hcap h.kids w writes with
          hrun | ⟨m, b, hlower, hupper, hb, hrun⟩
        · have hup := climb_spec hcap hu hk p _ _ w _ (h.keep hfull)
          have hlab := branch_label h.kids
          rw [hfirst] at hlab
          rw [sparseNode_fill, f.flat_fill, List.map_singleton, branches_singleton, hlab] at hup
          simp only [RunTree.Path.pre, RunTree.Path.post]
          rw [Engine.runIn_bind_ok hrun]
          simp only [hentries, List.set_append_right _ _ le_rfl, Nat.sub_self, List.set_cons_zero]
          simpa using hup
        · have hup := climb_spec hcap hu hk p _ _ w.tick _ (h.split hu hk hlower hupper)
          have hhead := RunTree.flat_halves m x.id ⟨w.clock 0, laneLower t.laneHash⟩ x
          have hlab : branch (x.lower m x.id).label =
              some ⟨first, x.id, (sparseNode (x.lower m x.id)).total⟩ := by
            rw [branch_label ((RunTree.full_iff _).mp hlower).2, RunTree.id_lower]
            rw [firstKey_sparseNode h.kids, ← hhead,
              List.head?_append_of_ne_nil _ hlower.flat_ne_nil] at hfirst
            rw [firstKey_sparseNode ((RunTree.full_iff _).mp hlower).2, hfirst]
            rfl
          have hpair : branches ([x.lower m x.id, x.upper m ⟨w.clock 0,
              laneLower t.laneHash⟩].map RunTree.label) =
              [⟨first, x.id, (sparseNode (x.lower m x.id)).total⟩, b] := by
            simp [branches, hlab, hb]
          rw [sparseNode_fill, f.flat_fill, hpair] at hup
          simp only [RunTree.Path.pre, RunTree.Path.post]
          rw [Engine.runIn_bind_ok hrun]
          have hinsert : (branches (f.before.map RunTree.label) ++
              ⟨first, x.id, (sparseNode (x.lower m x.id)).total⟩ ::
                branches (f.after.map RunTree.label)).insertIdx
              ((branches (f.before.map RunTree.label)).length + 1) b =
              branches (f.before.map RunTree.label) ++
                [⟨first, x.id, (sparseNode (x.lower m x.id)).total⟩, b] ++
                branches (f.after.map RunTree.label) := by
            have := insertIdx_length_append (branches (f.before.map RunTree.label) ++
              [⟨first, x.id, (sparseNode (x.lower m x.id)).total⟩])
              (branches (f.after.map RunTree.label)) b
            simpa using this
          simp only [hentries, List.set_append_right _ _ le_rfl, Nat.sub_self, List.set_cons_zero,
            hinsert]
          rw [List.flatMap_cons, List.flatMap_cons, List.flatMap_nil, List.append_nil, hhead] at hup
          simpa using hup

end Climb

end WaveDb.Index
