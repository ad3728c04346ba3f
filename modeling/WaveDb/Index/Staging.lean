import WaveDb.Core.Careful
import WaveDb.Index.Chain

-- Plans over a view of the writes before them, against the same plans applied one by
-- one.
namespace WaveDb.Index

open WaveDb.Lib WaveDb.Core

structure Handles (ι κ : Type) where
  chains : ι → Chain
  trees : κ → BpTree

inductive Plan {ι κ : Type} (K P : ι → Type) (T : κ → Type)
  | chainInsert (i : ι) (key : K i) (payload : P i)
  | chainRemove (i : ι) (key : K i)
  | treeInsert (j : κ) (key : T j)
  | treeRemove (j : κ) (key : T j)

section Plans

variable {V ι κ : Type} [DecidableEq ι] [DecidableEq κ] {K P : ι → Type} {T : κ → Type}
  [∀ i, LaneCodec V (Segment (K i) (P i))] [∀ i, LaneCodec V (SparseNode (K i))]
  [∀ i, LinearOrder (K i)] [∀ j, NodeCodec V (T j)] [∀ j, LinearOrder (T j)]

def Handles.setChain (h : Handles ι κ) (i : ι) (c : Chain) : Handles ι κ :=
  { h with chains := Function.update h.chains i c }

def Handles.setTree (h : Handles ι κ) (j : κ) (t : BpTree) : Handles ι κ :=
  { h with trees := Function.update h.trees j t }

def Plan.writes (fuel : Nat) (h : Handles ι κ) :
    Plan K P T → Engine V (Handles ι κ × List (Write V))
  | .chainInsert i key payload => do
      let (c, writes) ← (h.chains i).planInsert fuel key payload
      return (h.setChain i c, writes)
  | .chainRemove i key => do
      let (c, writes) ← (h.chains i).planRemove fuel key (P i)
      return (h.setChain i c, writes.getD [])
  | .treeInsert j key => do
      let (t, writes) ← (h.trees j).planInsert fuel key
      return (h.setTree j t, writes)
  | .treeRemove j key => do
      let (t, writes) ← (h.trees j).planRemove fuel key
      return (h.setTree j t, writes.getD [])

def overlayed (fuel : Nat) : List (Plan K P T) → Handles ι κ → List (Write V) →
    Engine V (Handles ι κ × List (Write V))
  | [], h, staged => return (h, staged)
  | plan :: plans, h, staged => do
      let (h, writes) ← Engine.onView staged (plan.writes fuel h)
      overlayed fuel plans h (staged ++ writes)

def atOnce (fuel : Nat) (plans : List (Plan K P T)) (h : Handles ι κ) (staged : List (Write V)) :
    Engine V (Handles ι κ × List (Write V)) := do
  let (h, batch) ← overlayed fuel plans h staged
  Engine.apply batch
  return (h, batch)

-- Every plan is applied before the next is made. `log` is what was applied.
def stepwise (fuel : Nat) : List (Plan K P T) → Handles ι κ → List (Write V) →
    Engine V (Handles ι κ × List (Write V))
  | [], h, log => return (h, log)
  | plan :: plans, h, log => do
      let (h, writes) ← plan.writes fuel h
      Engine.apply writes
      stepwise fuel plans h (log ++ writes)

end Plans

-- Decoders check the tag first, and refuse a value of another type.
class HeadedNodes (V K : Type) [Headed V] [NodeCodec V K] : Prop where
  fromBytes_of_ne : ∀ bytes : V, Headed.structHash bytes ≠ some bptreeNodeStructHash →
    ∃ e, (NodeCodec.fromBytes bytes : Except Error (NodeBody K)) = .error e

class HeadedLane (V X : Type) [Headed V] [LaneCodec V X] : Prop where
  fromBytes_of_ne : ∀ (laneHash : Nat) (bytes : V), Headed.structHash bytes ≠ some laneHash →
    ∃ e, (LaneCodec.fromBytes laneHash bytes : Except Error X) = .error e

def Plain {V : Type} (writes : List (Write V)) : Prop := ∀ x ∈ writes, x.isGuard = false

section Plain

variable {V : Type}

@[simp] theorem plain_nil : Plain ([] : List (Write V)) := nofun

@[simp] theorem plain_cons {x : Write V} {writes : List (Write V)} :
    Plain (x :: writes) ↔ x.isGuard = false ∧ Plain writes := List.forall_mem_cons

@[simp] theorem plain_append {a b : List (Write V)} : Plain (a ++ b) ↔ Plain a ∧ Plain b :=
  List.forall_mem_append

end Plain

variable {V K P : Type} [Headed V]

-- The shape of every load: absent is an error, and the rest is the decoder's.
theorem careful_load {X : Type} {hash : Nat} {id : Id} {e : Error} {decode : V → Except Error X}
    (hdecode : ∀ bytes, Headed.structHash bytes ≠ some hash → ∃ e, decode bytes = .error e) :
    Engine.Careful (fun _ => True) (do
      match ← Engine.getOf hash id with
      | none => .fail e
      | some bytes => Prog.ofExcept (decode bytes)) := by
  refine ⟨⟨e, rfl⟩, fun bytes h => ?_, fun slot => ?_⟩
  · obtain ⟨e', he⟩ := hdecode bytes h
    exact ⟨e', congrArg Prog.ofExcept he⟩
  · cases slot with
    | none => trivial
    | some bytes =>
      change Engine.Careful _ (Prog.ofExcept (decode bytes))
      cases decode bytes <;> trivial

theorem careful_mintNodeId : Engine.Careful (fun _ => True) (mintNodeId : Engine V LocalId) :=
  fun _ => trivial

theorem careful_mintLaneId (laneHash : Nat) :
    Engine.Careful (fun _ => True) (mintLaneId laneHash : Engine V LocalId) := fun _ => trivial

namespace BpTree

variable [NodeCodec V K] [HeadedNodes V K] (t : BpTree)

omit [Headed V] [HeadedNodes V K] in
@[simp] theorem put_isGuard (id : LocalId) (node : NodeBody K) :
    (t.put id node : Write V).isGuard = false := rfl

omit [Headed V] in
@[simp] theorem removeNode_isGuard (id : LocalId) :
    (t.removeNode id : Write V).isGuard = false := rfl

theorem careful_load (id : LocalId) :
    Engine.Careful (fun _ => True) (t.load id : Engine V (NodeBody K)) :=
  Index.careful_load HeadedNodes.fromBytes_of_ne

variable [LinearOrder K]

theorem careful_descend (target : K) (fuel : Nat) (id : LocalId) (path : List (PathFrame K)) :
    Engine.Careful (fun _ => True) (t.descend target fuel id path : Engine V _) := by
  induction fuel generalizing id path with
  | zero => trivial
  | succ fuel ih =>
    refine (t.careful_load id).bind fun node _ => ?_
    cases node with
    | leaf keys => trivial
    | internal leftmost entries => exact ih _ _

omit [HeadedNodes V K] [LinearOrder K] in
theorem careful_splitUp (path : List (PathFrame K)) (id : LocalId) (sep : K) (right : LocalId)
    {batch : List (Write V)} (hbatch : Plain batch) :
    Engine.Careful (fun r => Plain r.2) (t.splitUp path id sep right batch) := by
  induction path generalizing id sep right batch with
  | nil =>
    refine careful_mintNodeId.bind fun root _ => ?_
    change Plain _
    simp [hbatch]
  | cons frame path ih =>
    obtain ⟨parentId, leftmost, entries, childIdx⟩ := frame
    rw [splitUp]
    split
    · change Plain _
      simp [hbatch]
    · split
      · trivial
      · refine careful_mintNodeId.bind fun fresh _ => ih _ _ _ ?_
        simp [hbatch]

theorem careful_planInsert (fuel : Nat) (target : K) :
    Engine.Careful (fun r => Plain r.2) (t.planInsert fuel target : Engine V _) := by
  refine (t.careful_descend target fuel t.root []).bind fun ⟨keys, id, path⟩ _ => ?_
  cases hsearch : binarySearch keys target with
  | ok i =>
    simp only [hsearch]
    exact plain_nil
  | error pos =>
    simp only [hsearch]
    split
    · change Plain _
      simp
    · split
      · trivial
      · refine careful_mintNodeId.bind fun fresh _ => t.careful_splitUp _ _ _ _ ?_
        simp

omit [LinearOrder K] in
theorem careful_loadPair (current : NodeBody K) (isLeft : Bool) (left right : LocalId) :
    Engine.Careful (fun _ => True) (t.loadPair current isLeft left right : Engine V _) := by
  rw [loadPair]
  split
  · exact (t.careful_load right).bind fun _ _ => trivial
  · exact (t.careful_load left).bind fun _ _ => trivial

omit [LinearOrder K] in
theorem careful_rebalance (id : LocalId) (current : NodeBody K) (frame : PathFrame K) :
    Engine.Careful (fun r => Plain r.1) (t.rebalance id current frame : Engine V _) := by
  obtain ⟨parentId, leftmost, entries, childIdx⟩ := frame
  rw [rebalance]
  split
  · change Plain _
    simp
  · refine (t.careful_loadPair _ _ _ _).bind fun ⟨left, right⟩ _ => ?_
    cases entries[childIdx - 1]? with
    | none => trivial
    | some entry =>
      simp only
      split
      · change Plain _
        simp
      · change Plain _
        simp

theorem careful_removeUp (path : List (PathFrame K)) (id : LocalId) (current : NodeBody K)
    {batch : List (Write V)} (hbatch : Plain batch) :
    Engine.Careful (fun r => Plain r.2) (t.removeUp path id current batch) := by
  induction path generalizing id current batch with
  | nil =>
    change Plain (t.finishAtRoot batch id current).2
    unfold finishAtRoot
    split <;> simp [hbatch]
  | cons frame path ih =>
    rw [removeUp]
    split
    · refine (t.careful_rebalance id current frame).bind fun ⟨ws, outcome⟩ hws => ?_
      cases outcome with
      | parentPending parent node => exact ih _ _ (plain_append.mpr ⟨hbatch, hws⟩)
      | done => exact plain_append.mpr ⟨hbatch, hws⟩
    · change Plain _
      simp [hbatch]

theorem careful_planRemove (fuel : Nat) (target : K) :
    Engine.Careful (fun r => Plain (r.2.getD [])) (t.planRemove fuel target : Engine V _) := by
  refine (t.careful_descend target fuel t.root []).bind fun ⟨keys, id, path⟩ _ => ?_
  cases hsearch : binarySearch keys target with
  | error pos =>
    simp only [hsearch]
    exact plain_nil
  | ok i =>
    simp only [hsearch]
    exact (t.careful_removeUp path id _ plain_nil).bind fun _ h => h

end BpTree

namespace SparseTree

variable [LaneCodec V (SparseNode K)] [HeadedLane V (SparseNode K)] (t : SparseTree)

omit [Headed V] [HeadedLane V (SparseNode K)] in
@[simp] theorem put_isGuard (id : LocalId) (node : SparseNode K) :
    (t.put id node : Write V).isGuard = false := rfl

theorem careful_load (id : LocalId) :
    Engine.Careful (fun _ => True) (t.load id : Engine V (SparseNode K)) :=
  Index.careful_load (HeadedLane.fromBytes_of_ne t.laneHash)

omit [HeadedLane V (SparseNode K)] in
theorem careful_splitSibling (node : SparseNode K) {writes : List (Write V)}
    (hwrites : Plain writes) :
    Engine.Careful (fun r => Plain r.2.2) (t.splitSibling node writes) := by
  rw [splitSibling]
  split
  · exact hwrites
  · split
    · exact hwrites
    · refine (careful_mintLaneId _).bind fun fresh _ => ?_
      change Plain _
      simp [hwrites]

omit [HeadedLane V (SparseNode K)] in
theorem careful_climb (path : List (SparseFrame K)) (id : LocalId) (node : SparseNode K)
    {writes : List (Write V)} (hwrites : Plain writes) :
    Engine.Careful Plain (t.climb path id node writes) := by
  induction path generalizing id node writes with
  | nil =>
    refine (t.careful_splitSibling node hwrites).bind fun ⟨node, carry, writes⟩ hwrites => ?_
    change Plain writes at hwrites
    cases carry with
    | none =>
      change Plain _
      simp [hwrites]
    | some upper =>
      refine (careful_mintLaneId _).bind fun fresh _ => ?_
      change Plain _
      simp [hwrites]
  | cons frame path ih =>
    rw [climb]
    cases node.firstKey with
    | none => exact ih _ _ (plain_append.mpr ⟨hwrites, plain_cons.mpr ⟨rfl, plain_nil⟩⟩)
    | some first =>
      refine (t.careful_splitSibling node hwrites).bind fun ⟨node, carry, writes⟩ hwrites => ?_
      change Plain writes at hwrites
      cases carry with
      | none => exact ih _ _ (by simp [hwrites])
      | some branch => exact ih _ _ (by simp [hwrites])

variable [LinearOrder K]

theorem careful_findFrom (key : K) (fuel : Nat) (id : LocalId) :
    Engine.Careful (fun _ => True) (t.findFrom key fuel id : Engine V (Option (Slot K))) := by
  induction fuel generalizing id with
  | zero => trivial
  | succ fuel ih =>
    refine (t.careful_load id).bind fun node _ => ?_
    cases node.stepToKey key with
    | none => trivial
    | some step =>
      cases step with
      | segment slot offset => trivial
      | child node offset => exact ih node

theorem careful_descend (key : K) (fuel : Nat) (id : LocalId) (path : List (SparseFrame K)) :
    Engine.Careful (fun _ => True) (t.descend key fuel id path : Engine V _) := by
  induction fuel generalizing id path with
  | zero => trivial
  | succ fuel ih =>
    refine (t.careful_load id).bind fun node _ => ?_
    cases node with
    | leaf slots => trivial
    | internal entries =>
      cases hget : entries[branchFor entries key]? with
      | none =>
        simp only [hget]
        trivial
      | some b =>
        simp only [hget]
        exact ih _ _

theorem careful_planUpsert (fuel : Nat) (slot : Slot K) :
    Engine.Careful Plain (t.planUpsert fuel slot : Engine V _) :=
  (t.careful_descend _ _ _ _).bind fun _ _ => t.careful_climb _ _ _ plain_nil

theorem careful_planRemove (fuel : Nat) (first : K) :
    Engine.Careful Plain (t.planRemove fuel first : Engine V _) := by
  refine (t.careful_descend _ _ _ _).bind fun ⟨path, leafId, slots⟩ _ => ?_
  cases hsearch : binarySearch (slots.map Slot.first) first with
  | error pos =>
    simp only [hsearch]
    exact plain_nil
  | ok i =>
    simp only [hsearch]
    exact t.careful_climb _ _ _ plain_nil

end SparseTree

namespace Chain

variable [LaneCodec V (Segment K P)] [HeadedLane V (Segment K P)] (c : Chain)

omit [Headed V] [HeadedLane V (Segment K P)] in
@[simp] theorem put_isGuard (id : LocalId) (seg : Segment K P) :
    (c.put id seg : Write V).isGuard = false := rfl

omit [Headed V] in
@[simp] theorem erase_isGuard (id : LocalId) : (c.erase id : Write V).isGuard = false := rfl

theorem careful_load (id : LocalId) :
    Engine.Careful (fun _ => True) (c.load id : Engine V (Segment K P)) :=
  Index.careful_load (HeadedLane.fromBytes_of_ne c.laneHash)

theorem careful_relink {writes : List (Write V)} (hwrites : Plain writes) (id : LocalId)
    (target : Option LocalId) (setNext : Bool) :
    Engine.Careful Plain (c.relink K P writes id target setNext) := by
  refine ((c.careful_load id).onView writes).bind fun seg _ => ?_
  change Plain _
  simp [hwrites]

theorem careful_attach {writes : List (Write V)} (hwrites : Plain writes)
    (outer : Option LocalId) (id : LocalId) (setNext : Bool) :
    Engine.Careful (fun r => Plain r.2) (c.attach K P writes outer id setNext) := by
  cases outer with
  | none => exact hwrites
  | some outer => exact (c.careful_relink hwrites _ _ _).bind fun _ h => h

variable [LaneCodec V (SparseNode K)] [HeadedLane V (SparseNode K)] [LinearOrder K]

omit [LaneCodec V (SparseNode K)] [HeadedLane V (SparseNode K)] in
theorem careful_walkBackTo (key : K) (fuel : Nat) (id : LocalId) :
    Engine.Careful (fun _ => True) (c.walkBackTo key fuel id : Engine V (LocalId × Segment K P)) := by
  induction fuel generalizing id with
  | zero => trivial
  | succ fuel ih =>
    refine (c.careful_load id).bind fun seg _ => ?_
    cases seg.prev with
    | none => trivial
    | some prev =>
      simp only
      split
      · exact ih prev
      · trivial

theorem careful_locate (fuel : Nat) (key : K) :
    Engine.Careful (fun _ => True) (c.locate fuel key : Engine V (LocalId × Segment K P)) := by
  rw [locate]
  cases c.index with
  | none => exact c.careful_walkBackTo key fuel c.tail
  | some index =>
    refine (index.careful_findFrom key fuel index.root).bind fun slot _ => ?_
    exact (c.careful_load _).bind fun _ _ => trivial

theorem careful_unfile (index : SparseTree) (fuel : Nat) {writes : List (Write V)}
    (hwrites : Plain writes) (old : K) : Engine.Careful Plain (unfile index fuel writes old) :=
  ((index.careful_planRemove fuel old).onView writes).bind fun _ h => plain_append.mpr ⟨hwrites, h⟩

theorem careful_file (index : SparseTree) (fuel : Nat) {writes : List (Write V)}
    (hwrites : Plain writes) (slot : Slot K) : Engine.Careful Plain (file index fuel writes slot) :=
  ((index.careful_planUpsert fuel slot).onView writes).bind fun _ h => plain_append.mpr ⟨hwrites, h⟩

theorem careful_unfileMoved (index : SparseTree) (fuel : Nat) {writes : List (Write V)}
    (hwrites : Plain writes) (was now : Option K) :
    Engine.Careful Plain (unfileMoved index fuel writes was now) := by
  cases was with
  | none => exact hwrites
  | some old =>
    rw [unfileMoved]
    split
    · exact careful_unfile index fuel hwrites old
    · exact hwrites

omit [LaneCodec V (Segment K P)] [HeadedLane V (Segment K P)] in
theorem careful_reindex (fuel : Nat) {writes : List (Write V)} (hwrites : Plain writes)
    (was : Option K) (id : LocalId) (seg : Segment K P) :
    Engine.Careful Plain (c.reindex fuel writes was id seg) := by
  rw [reindex]
  cases c.index with
  | none => exact hwrites
  | some index =>
    refine (careful_unfileMoved index fuel hwrites was seg.firstKey).bind fun writes hwrites => ?_
    cases seg.firstKey with
    | none => exact hwrites
    | some first => exact careful_file index fuel hwrites _

theorem careful_split (fuel : Nat) {writes : List (Write V)} (hwrites : Plain writes)
    (id : LocalId) (seg : Segment K P) (was : Option K) :
    Engine.Careful (fun r => Plain r.2) (c.split fuel writes id seg was) := by
  refine (careful_mintLaneId _).bind fun fresh _ => ?_
  split
  all_goals
    refine (c.careful_attach hwrites _ _ _).bind fun ⟨c, writes⟩ hwrites => ?_
    change Plain writes at hwrites
    refine (c.careful_reindex fuel (by simp [hwrites]) _ _ _).bind fun writes hwrites => ?_
    exact (c.careful_reindex fuel hwrites _ _ _).bind fun _ h => h

theorem careful_planInsert (fuel : Nat) (key : K) (payload : P) :
    Engine.Careful (fun r => Plain r.2) (c.planInsert fuel key payload : Engine V _) := by
  refine ((c.careful_locate fuel key).onView []).bind fun ⟨id, seg⟩ _ => ?_
  simp only
  split
  · exact c.careful_split fuel plain_nil _ _ _
  · exact (c.careful_reindex fuel (by simp) _ _ _).bind fun _ h => h

omit [HeadedLane V (Segment K P)] in
theorem careful_redistribute (fuel : Nat) {writes : List (Write V)} (hwrites : Plain writes)
    (left right : Side K P) : Engine.Careful Plain (c.redistribute fuel writes left right) :=
  (c.careful_reindex fuel (by simp [hwrites]) _ _ _).bind fun _ hwrites =>
    c.careful_reindex fuel hwrites _ _ _

omit [LaneCodec V (Segment K P)] [HeadedLane V (Segment K P)] in
theorem careful_refile (fuel : Nat) {writes : List (Write V)} (hwrites : Plain writes)
    (gone : Option K) (kept : Side K P) : Engine.Careful Plain (c.refile fuel writes gone kept) := by
  unfold refile
  split
  · refine (careful_unfile _ fuel hwrites _).bind fun writes hwrites => ?_
    exact c.careful_reindex fuel hwrites _ _ _
  · exact c.careful_reindex fuel hwrites _ _ _

theorem careful_merge (fuel : Nat) {writes : List (Write V)} (hwrites : Plain writes)
    (left right : Side K P) :
    Engine.Careful (fun r => Plain r.2) (c.merge fuel writes left right) := by
  rw [merge]
  split
  all_goals
    refine (c.careful_attach hwrites _ _ _).bind fun ⟨c, writes⟩ hwrites => ?_
    change Plain writes at hwrites
    exact (c.careful_refile fuel (by simp [hwrites]) _ _).bind fun _ h => h

theorem careful_rebalance (fuel : Nat) {writes : List (Write V)} (hwrites : Plain writes)
    (starved : Side K P) (other : LocalId) :
    Engine.Careful (fun r => Plain r.2) (c.rebalance fuel writes starved other) := by
  refine ((c.careful_load other).onView writes).bind fun seg _ => ?_
  simp only
  split
  all_goals
    split
    · exact (c.careful_redistribute fuel hwrites _ _).bind fun _ h => h
    · exact c.careful_merge fuel hwrites _ _

theorem careful_planRemove (fuel : Nat) (key : K) :
    Engine.Careful (fun r => Plain (r.2.getD [])) (c.planRemove fuel key P : Engine V _) := by
  refine ((c.careful_locate (P := P) fuel key).onView []).bind fun ⟨id, seg⟩ _ => ?_
  simp only
  split
  · exact plain_nil
  · split
    · exact (c.careful_rebalance fuel plain_nil _ _).bind fun _ h => h
    · exact (c.careful_reindex fuel (by simp) _ _ _).bind fun _ h => h

end Chain

section Sequences

variable {ι κ : Type} [DecidableEq ι] [DecidableEq κ] {K P : ι → Type} {T : κ → Type}
  [∀ i, LaneCodec V (Segment (K i) (P i))] [∀ i, LaneCodec V (SparseNode (K i))]
  [∀ i, LinearOrder (K i)] [∀ j, NodeCodec V (T j)] [∀ j, LinearOrder (T j)]

theorem careful_writes [∀ i, HeadedLane V (Segment (K i) (P i))]
    [∀ i, HeadedLane V (SparseNode (K i))] [∀ j, HeadedNodes V (T j)] (fuel : Nat)
    (h : Handles ι κ) (plan : Plan K P T) :
    Engine.Careful (fun r => Plain r.2) (plan.writes fuel h : Engine V _) := by
  cases plan with
  | chainInsert i key payload =>
    exact ((h.chains i).careful_planInsert fuel key payload).bind fun _ hr => hr
  | chainRemove i key => exact ((h.chains i).careful_planRemove fuel key).bind fun _ hr => hr
  | treeInsert j key => exact ((h.trees j).careful_planInsert fuel key).bind fun _ hr => hr
  | treeRemove j key => exact ((h.trees j).careful_planRemove fuel key).bind fun _ hr => hr

omit [Headed V] in
theorem atOnce_cons (fuel : Nat) (plan : Plan K P T) (plans : List (Plan K P T)) (h : Handles ι κ)
    (staged : List (Write V)) : atOnce fuel (plan :: plans) h staged =
      Engine.onView staged (plan.writes fuel h) >>= fun r =>
        atOnce fuel plans r.1 (staged ++ r.2) := by
  simp only [atOnce, overlayed, bind_assoc]

variable [DecidableEq V] {fuel : Nat} {h h' : Handles ι κ} {w w' : TypedWorld V}
  {batch staged : List (Write V)} {plans : List (Plan K P T)}

theorem staged_subset_of_overlayed
    (hrun : (overlayed fuel plans h staged).runTyped w = (.ok (h', batch), w')) :
    staged ⊆ batch := by
  induction plans generalizing h staged w with
  | nil =>
    obtain ⟨hok, -⟩ := Prod.mk.inj hrun
    obtain ⟨-, rfl⟩ := Prod.mk.inj (Outcome.ok.inj hok)
    exact List.Subset.refl _
  | cons plan plans ih =>
    obtain ⟨⟨h₁, writes⟩, w₁, -, hrest⟩ := Engine.runTyped_bind_eq_ok.mp hrun
    exact List.Subset.trans (List.subset_append_left _ _) (ih hrest)

theorem log_subset_of_stepwise
    (hrun : (stepwise fuel plans h staged).runTyped w = (.ok (h', batch), w')) :
    staged ⊆ batch := by
  induction plans generalizing h staged w with
  | nil =>
    obtain ⟨hok, -⟩ := Prod.mk.inj hrun
    obtain ⟨-, rfl⟩ := Prod.mk.inj (Outcome.ok.inj hok)
    exact List.Subset.refl _
  | cons plan plans ih =>
    obtain ⟨⟨h₁, writes⟩, w₁, -, hrest⟩ := Engine.runTyped_bind_eq_ok.mp hrun
    obtain ⟨-, w₂, -, hrest⟩ := Engine.runTyped_bind_eq_ok.mp hrest
    exact List.Subset.trans (List.subset_append_left _ _) (ih hrest)

variable {τ : Id → Nat}

theorem lands_of_stepwise (htyped : ∀ x ∈ batch, x.Typed τ) {writes : List (Write V)}
    (hrun : (Engine.apply writes >>= fun _ => stepwise fuel plans h (staged ++ writes)).runTyped w =
      (.ok (h', batch), w')) : staged ++ writes ⊆ batch ∧ ∀ x ∈ writes, w.store.Lands τ x := by
  obtain ⟨u, w₁, happly, hrest⟩ := Engine.runTyped_bind_eq_ok.mp hrun
  have hsub := log_subset_of_stepwise hrest
  obtain ⟨s, hs, -⟩ := Engine.runTyped_apply_eq_ok.mp happly
  exact ⟨hsub, (TypedStore.apply_ok
    (fun x hx => htyped x (hsub (List.mem_append_right _ hx))) hs).1⟩

variable [∀ i, HeadedLane V (Segment (K i) (P i))] [∀ i, HeadedLane V (SparseNode (K i))]
  [∀ j, HeadedNodes V (T j)]

omit [DecidableEq V] in
theorem careful_overlayed (fuel : Nat) (plans : List (Plan K P T)) (h : Handles ι κ)
    (staged : List (Write V)) :
    Engine.Careful (fun _ => True) (overlayed fuel plans h staged) := by
  induction plans generalizing h staged with
  | nil => trivial
  | cons plan plans ih =>
    exact ((careful_writes fuel h plan).onView staged).bind fun _ _ => ih _ _

theorem lands_of_atOnce (htyped : ∀ x ∈ batch, x.Typed τ)
    (hrun : (atOnce fuel plans h staged).runTyped w = (.ok (h', batch), w')) :
    staged ⊆ batch ∧ ∀ x ∈ batch, w.store.Lands τ x := by
  obtain ⟨⟨h₁, batch₁⟩, w₁, hplans, hrest⟩ := Engine.runTyped_bind_eq_ok.mp hrun
  obtain ⟨u, w₂, happly, hend⟩ := Engine.runTyped_bind_eq_ok.mp hrest
  obtain ⟨hok, -⟩ := Prod.mk.inj hend
  obtain ⟨rfl, rfl⟩ := Prod.mk.inj (Outcome.ok.inj hok)
  obtain ⟨s, hs, -⟩ := Engine.runTyped_apply_eq_ok.mp happly
  have hstore := (careful_overlayed fuel plans h staged).run_store w
  rw [hplans] at hstore
  refine ⟨staged_subset_of_overlayed hplans, ?_⟩
  rw [← hstore]
  exact (TypedStore.apply_ok htyped hs).1

-- The induction is on the plans. The view of what is staged so far stands
-- against a store in which it has been applied.
theorem atOnce_iff_stepwise (hs : w.store.Keeps τ) (hplain : Plain staged)
    (hstaged : ∀ x ∈ staged, w.store.Lands τ x) (htyped : ∀ x ∈ batch, x.Typed τ) :
    (atOnce fuel plans h staged).runTyped w = (.ok (h', batch), w') ↔
      (stepwise fuel plans h staged).runTyped (w.view staged) = (.ok (h', batch), w') := by
  induction plans generalizing h staged w with
  | nil =>
    have happly : (Engine.apply staged).runTyped w = (.ok (), w.view staged) :=
      Engine.runTyped_apply_eq_ok.mpr ⟨_, TypedStore.apply_of_lands hplain hstaged, rfl⟩
    have hrun : (atOnce fuel ([] : List (Plan K P T)) h staged).runTyped w =
        (.ok (h, staged), w.view staged) := Prog.run_bind_ok happly
    rw [hrun]
    rfl
  | cons plan plans ih =>
    have hagree := (careful_writes fuel h plan).agrees hs hstaged
    rw [atOnce_cons, stepwise]
    generalize hleft : (Engine.onView staged (plan.writes fuel h)).runTyped w = left at hagree
    generalize hright : (plan.writes fuel h).runTyped (w.view staged) = right at hagree
    cases hagree with
    | refused hl hr =>
      constructor
      · intro hrun
        obtain ⟨a, w₁, ha, -⟩ := Engine.runTyped_bind_eq_ok.mp hrun
        exact absurd (congrArg Prod.fst (hleft.symm.trans ha)) (hl a)
      · intro hrun
        obtain ⟨a, w₁, ha, -⟩ := Engine.runTyped_bind_eq_ok.mp hrun
        exact absurd (congrArg Prod.fst (hright.symm.trans ha)) (hr a)
    | ok r w₁ hstore hwrites =>
      obtain ⟨h₁, writes⟩ := r
      rw [Engine.runTyped, Prog.run_bind_ok hleft, Engine.runTyped, Prog.run_bind_ok hright]
      change (atOnce fuel plans h₁ (staged ++ writes)).runTyped w₁ = _ ↔
        (Engine.apply writes >>= fun _ => stepwise fuel plans h₁ (staged ++ writes)).runTyped
          (w₁.view staged) = _
      have hnext : (∀ x ∈ writes, w₁.store.Lands τ x) →
          ((atOnce fuel plans h₁ (staged ++ writes)).runTyped w₁ = (.ok (h', batch), w') ↔
            (Engine.apply writes >>= fun _ =>
              stepwise fuel plans h₁ (staged ++ writes)).runTyped (w₁.view staged) =
              (.ok (h', batch), w')) := by
        intro hlands
        have happly : (Engine.apply writes).runTyped (w₁.view staged) =
            (.ok (), w₁.view (staged ++ writes)) :=
          Engine.runTyped_apply_eq_ok.mpr ⟨_, TypedStore.apply_of_lands hwrites fun x hx =>
            (TypedStore.lands_commitToCaches staged x).mpr (hlands x hx), by
              rw [TypedWorld.view, TypedStore.commitToCaches_append]
              rfl⟩
        rw [Engine.runTyped, Engine.runTyped, Prog.run_bind_ok happly]
        refine ih (by rwa [hstore]) (plain_append.mpr ⟨hplain, hwrites⟩) fun x hx => ?_
        rcases List.mem_append.mp hx with hx | hx
        · rw [hstore]
          exact hstaged x hx
        · exact hlands x hx
      constructor
      · intro hrun
        obtain ⟨hsub, hlands⟩ := lands_of_atOnce htyped hrun
        exact (hnext fun x hx => hlands x (hsub (List.mem_append_right _ hx))).mp hrun
      · intro hrun
        obtain ⟨-, hlands⟩ := lands_of_stepwise htyped hrun
        exact (hnext fun x hx =>
          (TypedStore.lands_commitToCaches staged x).mp (hlands x hx)).mpr hrun

end Sequences

inductive SampleValue
  | node (body : NodeBody Nat)
  | segment (hash : Nat) (seg : Segment Nat Unit)
  | index (hash : Nat) (node : SparseNode Nat)
  deriving DecidableEq

namespace SampleValue

instance : Headed SampleValue where
  structHash
    | node _ => some bptreeNodeStructHash
    | segment hash _ => some hash
    | index hash _ => some hash

instance : NodeCodec SampleValue Nat where
  toBytes := node
  fromBytes
    | node body => .ok body
    | _ => .error .wire
  fromBytes_toBytes _ := rfl

instance : LaneCodec SampleValue (Segment Nat Unit) where
  toBytes := segment
  fromBytes hash
    | segment head seg => if head = hash then .ok seg else .error (.unknownStructHash head)
    | _ => .error .wire
  fromBytes_toBytes _ _ := if_pos rfl

instance : LaneCodec SampleValue (SparseNode Nat) where
  toBytes := index
  fromBytes hash
    | index head body => if head = hash then .ok body else .error (.unknownStructHash head)
    | _ => .error .wire
  fromBytes_toBytes _ _ := if_pos rfl

instance : HeadedNodes SampleValue Nat where
  fromBytes_of_ne
    | node _, h => absurd rfl h
    | segment _ _, _ => ⟨.wire, rfl⟩
    | index _ _, _ => ⟨.wire, rfl⟩

instance : HeadedLane SampleValue (Segment Nat Unit) where
  fromBytes_of_ne _
    | node _, _ => ⟨.wire, rfl⟩
    | segment head _, h => ⟨.unknownStructHash head, if_neg fun heq => h (congrArg some heq)⟩
    | index _ _, _ => ⟨.wire, rfl⟩

instance : HeadedLane SampleValue (SparseNode Nat) where
  fromBytes_of_ne _
    | node _, _ => ⟨.wire, rfl⟩
    | segment _ _, _ => ⟨.wire, rfl⟩
    | index head _, h => ⟨.unknownStructHash head, if_neg fun heq => h (congrArg some heq)⟩

def handles : Handles Unit Unit where
  chains _ := ⟨⟨1, 3⟩, ⟨1, 3⟩, 7, 3, none, 1⟩
  trees _ := ⟨⟨3, 1⟩, 7, 4, 4⟩

def slot (hash : Nat) (id : LocalId) (value : SampleValue) : TypeSlot SampleValue where
  hash := hash
  cache _ := none
  dead _ := false
  pages i := if i = id.toId 7 then some value else none

def store : TypedStore SampleValue where
  types := [slot 3 ⟨1, 3⟩ (segment 3 ⟨none, none, []⟩), slot 4 ⟨2, 4⟩ (index 4 (.leaf [])),
    slot bptreeNodeStructHash ⟨3, 1⟩ (node (.leaf []))]
  sorted := by decide

def typeOf (id : Id) : Nat :=
  if id.lower % 2 ^ 15 = 3 then 3 else if id.lower % 2 ^ 15 = 4 then 4 else bptreeNodeStructHash

instance (x : Write SampleValue) : Decidable (x.Typed typeOf) := inferInstanceAs (Decidable (_ = _))

theorem read_slot (hash : Nat) (l : LocalId) (value : SampleValue) (id : Id) :
    (slot hash l value).read id = if id = l.toId 7 then some value else none := rfl

theorem store_keeps : store.Keeps typeOf := by
  intro hash id hne
  have hread : ∀ (l : LocalId) (value : SampleValue), typeOf (l.toId 7) = hash →
      (slot hash l value).read id = none := by
    intro l value hl
    rw [read_slot, if_neg]
    rintro rfl
    exact hne hl.symm
  rw [TypedStore.readOf]
  cases hslot : store.slotOf hash with
  | none => rfl
  | some found =>
    obtain rfl := TypedStore.slotOf_hash hslot
    have hmem := List.mem_of_find?_eq_some hslot
    simp only [store, List.mem_cons, List.not_mem_nil, or_false] at hmem
    rcases hmem with rfl | rfl | rfl
    · exact hread _ _ (by decide)
    · exact hread _ _ (by decide)
    · exact hread _ _ (by decide)

def plans : List (Plan (fun _ : Unit => Nat) (fun _ => Unit) (fun _ : Unit => Nat)) :=
  [.chainInsert () 5 (), .treeInsert () 9, .chainInsert () 6 ()]

def world : TypedWorld SampleValue := ⟨store, fun n => n + 10, 0⟩

end SampleValue

end WaveDb.Index
