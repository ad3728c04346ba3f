import WaveDb.Index.BpTree.Run
import WaveDb.Lib.BigEndian

-- The search of a tree: a walk over the nodes whose window may have a match.
namespace WaveDb.Index

open WaveDb.Lib WaveDb.Core

-- A search bound over the order of encoded keys. A range is half-open.
inductive Bound
  | all
  | exact (key : List UInt8)
  | range (lo hi : List UInt8)
  | keyPrefix (start : List UInt8)
  deriving DecidableEq, Repr

namespace Bound

def contains : Bound → List UInt8 → Bool
  | .all, _ => true
  | .exact k, key => key = k
  | .range lo hi, key => lo ≤ key ∧ key < hi
  | .keyPrefix start, key => start.isPrefixOf key

def asU64 (bytes : List UInt8) : Option Nat :=
  if bytes.length = 8 then some (ofBeBytes bytes) else none

-- The instants the bound can match, both ends included. `none` when it does
-- not say.
def createdAtRange : Bound → Option (Nat × Nat)
  | .all => none
  | .exact k => (asU64 k).map fun k => (k, k)
  | .range lo hi => do
      let lo ← asU64 lo
      let hi ← asU64 hi
      -- nothing is below zero, and the range that says so is an empty one
      if hi = 0 then return (1, 0) else return (lo, hi - 1)
  | .keyPrefix start =>
    if 8 < start.length then none
    else some (ofBeBytes (start ++ List.replicate (8 - start.length) 0x00),
      ofBeBytes (start ++ List.replicate (8 - start.length) 0xFF))

end Bound

-- What a key of a tree answers to a search: whether it is in the bound, and
-- whether the window from `min` to `max` may have a key that is.
class NodeKey (K : Type) where
  inBound : K → Bound → Bool
  mayIntersect : Bound → Option K → Option K → Bool

instance : NodeKey LocalId where
  inBound k bound :=
    match bound with
    | .all => true
    | bound => bound.contains (beBytes 8 k.key)
  mayIntersect bound min max :=
    match bound.createdAtRange with
    | none => true
    | some (lo, hi) => lo ≤ max.elim (2 ^ 64 - 1) LocalId.key ∧ min.elim 0 LocalId.key ≤ hi

section Walk

variable {V K : Type} [NodeCodec V K] [NodeKey K]

structure WalkState (K : Type) where
  nodes : List LocalId
  ready : List K

-- The window of child `i` is between the separators around it.
def keepChild (bound : Bound) (entries : List (K × LocalId)) (i : Nat) : Bool :=
  NodeKey.mayIntersect bound (if i = 0 then none else (entries[i - 1]?).map Prod.fst)
    ((entries[i]?).map Prod.fst)

def expandChildren (bound : Bound) (nodes : List LocalId) (leftmost : LocalId)
    (entries : List (K × LocalId)) : List LocalId :=
  let nodes := entries.zipIdx.foldr (fun e nodes =>
    if keepChild bound entries (e.2 + 1) then e.1.2 :: nodes else nodes) nodes
  if keepChild bound entries 0 then leftmost :: nodes else nodes

-- One poll. A node that cannot be read is an item as well, and the walk goes on behind
-- it.
def searchNext (t : BpTree) (bound : Bound) : Nat → WalkState K →
    Engine V (Option (Except Error K × WalkState K))
  | _, ⟨nodes, key :: ready⟩ => return some (.ok key, ⟨nodes, ready⟩)
  | _, ⟨[], []⟩ => return none
  | 0, ⟨_ :: _, []⟩ => .stuck
  | fuel + 1, ⟨node :: nodes, []⟩ => do
      match ← Engine.getOf bptreeNodeStructHash (node.toId t.tenant) with
      | none => return some (.error (.bpTreeNodeMissing node), ⟨nodes, []⟩)
      | some bytes =>
        match (NodeCodec.fromBytes bytes : Except Error (NodeBody K)) with
        | .error e => return some (.error e, ⟨nodes, []⟩)
        | .ok (.leaf keys) =>
          searchNext t bound fuel ⟨nodes, keys.filter (NodeKey.inBound · bound)⟩
        | .ok (.internal leftmost entries) =>
          searchNext t bound fuel ⟨expandChildren bound nodes leftmost entries, []⟩

def searchDrain (t : BpTree) (bound : Bound) (walk : Nat) : Nat → WalkState K →
    Engine V (List (Except Error K))
  | 0, _ => .stuck
  | fuel + 1, st => do
      match ← searchNext t bound walk st with
      | none => return []
      | some (item, st) =>
        let rest ← searchDrain t bound walk fuel st
        return item :: rest

def BpTree.searchKeys (t : BpTree) (bound : Bound) (fuel : Nat) :
    Engine V (List (Except Error K)) :=
  searchDrain t bound fuel fuel ⟨[t.root], []⟩

end Walk

-- A window that has a key in the bound is not skipped. A child has the keys
-- from the separator before it up to the one behind it.
def NodeKey.Conservative (K : Type) [NodeKey K] [LinearOrder K] (valid : K → Prop) : Prop :=
  ∀ (bound : Bound) (min max : Option K) (k : K), valid k → (∀ m ∈ min, m ≤ k) →
    (∀ m ∈ max, k < m) → NodeKey.inBound k bound = true → NodeKey.mayIntersect bound min max = true

section Children

variable {K : Type} [LinearOrder K] {d : Nat}

theorem lt_of_mem_first {id : LocalId} {first : SepTree LocalId K d}
    {rest : List (K × SepTree LocalId K d)}
    (hs : (SepTree.node id first rest).flat.Pairwise (· < ·)) {k : K} (hk : k ∈ first.keys) :
    ∀ e ∈ rest.head?, k < e.1 := by
  intro e he
  rw [SepTree.flat_node, List.pairwise_append] at hs
  rw [← SepTree.itemKeys_flat, SepTree.mem_itemKeys] at hk
  obtain ⟨rest', rfl⟩ : ∃ rest', rest = e :: rest' := by
    cases rest with
    | nil => cases he
    | cons x rest => exact ⟨rest, by rw [Option.some.inj he]⟩
  exact keyItem_lt_sepItem.mp (hs.2.2 _ hk (sepItem e.1) (by simp))

theorem between_of_mem_child {id : LocalId} {first : SepTree LocalId K d}
    {a b : List (K × SepTree LocalId K d)} {e : K × SepTree LocalId K d}
    (hs : (SepTree.node id first (a ++ e :: b)).flat.Pairwise (· < ·)) {k : K}
    (hk : k ∈ e.2.keys) : e.1 ≤ k ∧ ∀ x ∈ b.head?, k < x.1 := by
  rw [flat_split id id first e.1 e.2 a b, List.pairwise_append, List.pairwise_cons] at hs
  have hmem : keyItem k ∈ (SepTree.node id e.2 b).flat := by
    rw [← SepTree.itemKeys_flat, SepTree.mem_itemKeys] at hk
    rw [SepTree.flat_node]
    exact List.mem_append_left _ hk
  exact ⟨sepItem_lt_keyItem.mp (hs.2.1.1 _ hmem), lt_of_mem_first hs.2.1.2 hk⟩

variable [NodeKey K] {valid : K → Prop}

def found (bound : Bound) (trees : List (SepTree LocalId K d)) : List K :=
  trees.flatMap fun c => c.keys.filter (NodeKey.inBound · bound)

theorem found_eq_nil {bound : Bound} {c : SepTree LocalId K d} {min max : Option K}
    (hcons : NodeKey.Conservative K valid) (hvalid : ∀ k ∈ c.keys, valid k)
    (hmin : ∀ k ∈ c.keys, ∀ m ∈ min, m ≤ k) (hmax : ∀ k ∈ c.keys, ∀ m ∈ max, k < m)
    (hskip : NodeKey.mayIntersect bound min max = false) : found bound [c] = [] := by
  rw [found, List.flatMap_singleton, List.filter_eq_nil_iff]
  intro k hk hin
  have := hcons bound min max k (hvalid k hk) (hmin k hk) (hmax k hk) hin
  rw [hskip] at this
  cases this

def idEntries (rest : List (K × SepTree LocalId K d)) : List (K × LocalId) :=
  rest.map fun e => (e.1, e.2.id)

-- Of the children behind the leftmost one only such without a match are left
-- out. Induction on those still to come.
theorem expand_rest (hcons : NodeKey.Conservative K valid) (bound : Bound) (nodes : List LocalId)
    (id : LocalId) (first : SepTree LocalId K d) (a b : List (K × SepTree LocalId K d))
    (hs : (SepTree.node id first (a ++ b)).flat.Pairwise (· < ·))
    (hvalid : ∀ e ∈ b, ∀ k ∈ e.2.keys, valid k) :
    ∃ kept : List (SepTree LocalId K d), kept.Sublist (b.map Prod.snd) ∧
      ((idEntries b).zipIdx a.length).foldr (fun e nodes =>
        if keepChild bound (idEntries (a ++ b)) (e.2 + 1) then e.1.2 :: nodes else nodes) nodes =
          kept.map SepTree.id ++ nodes ∧
      found bound kept = found bound (b.map Prod.snd) := by
  induction b generalizing a with
  | nil => exact ⟨[], .slnil, rfl, rfl⟩
  | cons e b ih =>
    have hsnoc : a ++ e :: b = (a ++ [e]) ++ b := by simp
    obtain ⟨kept, hsub, heq, hfound⟩ := ih (a ++ [e]) (by rwa [← hsnoc])
      fun x hx => hvalid x (List.mem_cons_of_mem _ hx)
    rw [List.length_append, List.length_singleton, ← hsnoc] at heq
    have hstep : ((idEntries (e :: b)).zipIdx a.length).foldr (fun x nodes =>
        if keepChild bound (idEntries (a ++ e :: b)) (x.2 + 1) then x.1.2 :: nodes else nodes)
        nodes = if keepChild bound (idEntries (a ++ e :: b)) (a.length + 1) then
          e.2.id :: (kept.map SepTree.id ++ nodes) else kept.map SepTree.id ++ nodes := by
      rw [← heq]
      rfl
    have hkeep : keepChild bound (idEntries (a ++ e :: b)) (a.length + 1) =
        NodeKey.mayIntersect bound (some e.1) (b.head?.map Prod.fst) := by
      have hat : (idEntries (a ++ e :: b))[a.length]? = some (e.1, e.2.id) := by
        simp [idEntries]
      have hnext : ((idEntries (a ++ e :: b))[a.length + 1]?).map Prod.fst =
          b.head?.map Prod.fst := by
        cases b <;> simp [idEntries]
      rw [keepChild, if_neg (Nat.succ_ne_zero _), Nat.add_sub_cancel, hat, hnext]
      rfl
    have hsplit : found bound ((e :: b).map Prod.snd) =
        found bound [e.2] ++ found bound (b.map Prod.snd) := by simp [found]
    rw [hstep, hsplit, ← hfound]
    by_cases hyes : keepChild bound (idEntries (a ++ e :: b)) (a.length + 1) = true
    · rw [if_pos hyes]
      exact ⟨e.2 :: kept, hsub.cons_cons _, rfl, by simp [found]⟩
    · rw [if_neg hyes]
      rw [Bool.not_eq_true, hkeep] at hyes
      have hnone := found_eq_nil hcons (hvalid e List.mem_cons_self)
        (fun k hk m hm => by cases hm; exact (between_of_mem_child hs hk).1)
        (fun k hk m hm => by
          obtain ⟨x, hx, rfl⟩ := Option.map_eq_some_iff.mp hm
          exact (between_of_mem_child hs hk).2 x hx) hyes
      exact ⟨kept, hsub.cons _, rfl, by rw [hnone]; rfl⟩

theorem expand_children (hcons : NodeKey.Conservative K valid) (bound : Bound)
    (nodes : List LocalId) {id : LocalId} {first : SepTree LocalId K d}
    {rest : List (K × SepTree LocalId K d)}
    (hs : (SepTree.node id first rest).flat.Pairwise (· < ·))
    (hvalid : ∀ k ∈ (SepTree.node id first rest).keys, valid k) :
    ∃ kept : List (SepTree LocalId K d), kept.Sublist (first :: rest.map Prod.snd) ∧
      expandChildren bound nodes first.id (idEntries rest) = kept.map SepTree.id ++ nodes ∧
      found bound kept = found bound [SepTree.node id first rest] := by
  have hkids : ∀ e ∈ rest, ∀ k ∈ e.2.keys, valid k := fun e he k hk => hvalid k (by
    rw [SepTree.keys_node]
    exact List.mem_append_right _ (List.mem_flatMap.mpr ⟨e, he, hk⟩))
  obtain ⟨kept, hsub, heq, hfound⟩ := expand_rest hcons bound nodes id first [] rest hs hkids
  have hall : found bound [SepTree.node id first rest] = found bound [first] ++ found bound kept := by
    rw [hfound]
    simp [found, List.filter_flatMap, List.flatMap_map]
  have hstep : expandChildren bound nodes first.id (idEntries rest) =
      if keepChild bound (idEntries rest) 0 then first.id :: (kept.map SepTree.id ++ nodes)
      else kept.map SepTree.id ++ nodes := by
    rw [← heq]
    rfl
  have hkeep : keepChild bound (idEntries rest) 0 =
      NodeKey.mayIntersect bound none (rest.head?.map Prod.fst) := by
    cases rest <;> simp [keepChild, idEntries]
  rw [hstep, hall]
  by_cases hyes : keepChild bound (idEntries rest) 0 = true
  · rw [if_pos hyes]
    exact ⟨first :: kept, hsub.cons_cons _, rfl, by simp [found]⟩
  · rw [if_neg hyes]
    rw [Bool.not_eq_true, hkeep] at hyes
    have hnone := found_eq_nil hcons
      (fun k hk => hvalid k (by rw [SepTree.keys_node]; exact List.mem_append_left _ hk))
      (fun k hk m hm => by cases hm)
      (fun k hk m hm => by
        obtain ⟨x, hx, rfl⟩ := Option.map_eq_some_iff.mp hm
        exact lt_of_mem_first hs hk x hx) hyes
    exact ⟨kept, hsub.cons _, rfl, by rw [hnone]; rfl⟩

end Children

section Stream

variable {V K : Type} [NodeCodec V K] [DecidableEq V] [LinearOrder K] [NodeKey K]

structure Queued (t : BpTree) (w : World V) (valid : K → Prop) {d : Nat} (c : SepTree LocalId K d) :
    Prop where
  held : Holds w.store (c.cells (layout V t.tenant))
  sorted : c.flat.Pairwise (· < ·)
  valid : ∀ k ∈ c.keys, valid k

-- What a walk has before it: the keys `out`, in the queue or under `n` nodes.
def Pending (t : BpTree) (w : World V) (valid : K → Prop) (bound : Bound) (st : WalkState K)
    (out : List K) (n : Nat) : Prop :=
  ∃ trees : List ((d : Nat) × SepTree LocalId K d),
    st.nodes = trees.map (fun c => c.2.id) ∧ (∀ c ∈ trees, Queued t w valid c.2) ∧
    out = st.ready ++ trees.flatMap (fun c => found bound [c.2]) ∧
    n = (trees.map fun c => (c.2.cells (layout V t.tenant)).length).sum

variable {t : BpTree} {w : World V} {valid : K → Prop} {bound : Bound}

omit [DecidableEq V] [NodeKey K] in
theorem Queued.kid {d : Nat} {id : LocalId} {first c : SepTree LocalId K d}
    {rest : List (K × SepTree LocalId K d)} (h : Queued t w valid (SepTree.node id first rest))
    (hc : c ∈ first :: rest.map Prod.snd) : Queued t w valid c := by
  obtain ⟨hheld, hsorted, hvalid⟩ := h
  rw [SepTree.flat_node, List.pairwise_append] at hsorted
  rcases List.mem_cons.mp hc with rfl | hc
  · refine ⟨fun cell hcell => hheld cell ?_, hsorted.1, fun k hk => hvalid k ?_⟩
    · exact List.mem_cons_of_mem _ (List.mem_append_left _ hcell)
    · rw [SepTree.keys_node]
      exact List.mem_append_left _ hk
  · obtain ⟨e, he, rfl⟩ := List.mem_map.mp hc
    refine ⟨fun cell hcell => hheld cell ?_, ?_, fun k hk => hvalid k ?_⟩
    · exact List.mem_cons_of_mem _ (List.mem_append_right _ (List.mem_flatMap.mpr ⟨e, he, hcell⟩))
    · obtain ⟨a, b, rfl⟩ := List.append_of_mem he
      have hrest := hsorted.2.1
      rw [List.flatMap_append, List.flatMap_cons, List.pairwise_append, List.pairwise_append] at hrest
      exact (List.pairwise_cons.mp hrest.2.1.1).2
    · rw [SepTree.keys_node]
      exact List.mem_append_right _ (List.mem_flatMap.mpr ⟨e, he, hk⟩)

omit [NodeCodec V K] [DecidableEq V] [LinearOrder K] [NodeKey K] in
theorem length_kids_lt {d : Nat} (id : LocalId) (first : SepTree LocalId K d)
    (rest : List (K × SepTree LocalId K d)) {kept : List (SepTree LocalId K d)}
    (hsub : kept.Sublist (first :: rest.map Prod.snd)) (L : Layout LocalId K Id V) :
    (kept.map fun c => (c.cells L).length).sum < ((SepTree.node id first rest).cells L).length := by
  have hle := (hsub.map fun c => (c.cells L).length).sum_le_sum (by simp)
  refine hle.trans_lt ?_
  rw [SepTree.cells_node, List.length_cons, SepTree.kidCells, List.length_append,
    List.length_flatMap]
  simp [Function.comp_def]

def afterRead (bound : Bound) (nodes : List LocalId) : NodeBody K → WalkState K
  | .leaf keys => ⟨nodes, keys.filter (NodeKey.inBound · bound)⟩
  | .internal leftmost entries => ⟨expandChildren bound nodes leftmost entries, []⟩

theorem searchNext_read {d : Nat} {c : SepTree LocalId K d}
    (h : Holds w.store (c.cells (layout V t.tenant))) (nodes : List LocalId) (fuel : Nat) :
    (searchNext t bound (fuel + 1) ⟨c.id :: nodes, []⟩ : Engine V _).runIn w =
      (searchNext t bound fuel (afterRead bound nodes (nodeBody c)) : Engine V _).runIn w := by
  rw [cells_eq] at h
  rw [searchNext, Engine.runIn_bind_ok (Engine.runIn_getOf _ _ _), h _ List.mem_cons_self]
  simp only [NodeCodec.fromBytes_toBytes]
  cases nodeBody c <;> rfl

omit [DecidableEq V] in
theorem pending_read (hcons : NodeKey.Conservative K valid) (bound : Bound)
    {trees : List ((d : Nat) × SepTree LocalId K d)} (htrees : ∀ x ∈ trees, Queued t w valid x.2) :
    {d : Nat} → (c : SepTree LocalId K d) → Queued t w valid c →
    ∃ n, n < (c.cells (layout V t.tenant)).length +
        (trees.map fun c => (c.2.cells (layout V t.tenant)).length).sum ∧
      Pending t w valid bound (afterRead bound (trees.map fun c => c.2.id) (nodeBody c))
        (found bound [c] ++ trees.flatMap fun c => found bound [c.2]) n
  | 0, .leaf id keys, _ => by
      refine ⟨_, ?_, trees, rfl, htrees, ?_, rfl⟩
      · simp
      · simp [found, afterRead, nodeBody]
  | d + 1, .node id first rest, hc => by
      obtain ⟨kept, hsub, heq, hfound⟩ := expand_children hcons bound
        (trees.map fun c => c.2.id) hc.sorted hc.valid
      refine ⟨_, ?_, kept.map (Sigma.mk d) ++ trees, ?_, fun x hx => ?_, ?_, rfl⟩
      · have hlt := length_kids_lt id first rest hsub (layout V t.tenant)
        rw [List.map_append, List.sum_append, List.map_map]
        exact Nat.add_lt_add_right hlt _
      · rw [List.map_append, List.map_map]
        exact heq
      · rcases List.mem_append.mp hx with hx | hx
        · obtain ⟨y, hy, rfl⟩ := List.mem_map.mp hx
          exact hc.kid (hsub.subset hy)
        · exact htrees x hx
      · rw [← hfound, List.flatMap_append]
        simp [found, afterRead, nodeBody, List.flatMap_map]

-- A poll hands out the next key, or ends the stream when there is none.
-- Induction on the fuel: reading a node leaves fewer of them.
theorem searchNext_spec (hcons : NodeKey.Conservative K valid) {fuel n : Nat} {st : WalkState K}
    {out : List K} (h : Pending t w valid bound st out n) (hfuel : n < fuel) :
    (out = [] ∧ (searchNext t bound fuel st : Engine V _).runIn w = (.ok none, w)) ∨
    ∃ k out' st' n', out = k :: out' ∧ n' ≤ n ∧ Pending t w valid bound st' out' n' ∧
      (searchNext t bound fuel st : Engine V _).runIn w = (.ok (some (.ok k, st')), w) := by
  induction fuel generalizing n st with
  | zero => exact absurd hfuel (Nat.not_lt_zero _)
  | succ fuel ih =>
    obtain ⟨trees, hnodes, hqueued, hout, hn⟩ := h
    obtain ⟨nodes, ready⟩ := st
    obtain rfl : nodes = _ := hnodes
    match ready, trees with
    | k :: ready, trees =>
      refine .inr ⟨k, _, ⟨_, ready⟩, n, hout, le_rfl, ⟨trees, rfl, hqueued, rfl, hn⟩, ?_⟩
      simp only [searchNext]
      rfl
    | [], [] => exact .inl ⟨hout, rfl⟩
    | [], ⟨d, c⟩ :: trees =>
      have hc : Queued t w valid c := hqueued ⟨d, c⟩ List.mem_cons_self
      obtain ⟨m, hlt, hpending⟩ := pending_read hcons bound
        (fun x hx => hqueued x (List.mem_cons_of_mem _ hx)) c hc
      have hsize : n = (c.cells (layout V t.tenant)).length +
          (trees.map fun c => (c.2.cells (layout V t.tenant)).length).sum := hn
      obtain rfl : out = found bound [c] ++ trees.flatMap fun c => found bound [c.2] := hout
      rw [List.map_cons, searchNext_read hc.held]
      rcases ih hpending (by omega) with hend | ⟨k, out', st', n', hk, hle, hst, hrun⟩
      · exact .inl hend
      · exact .inr ⟨k, out', st', n', hk, by omega, hst, hrun⟩

theorem searchDrain_spec (hcons : NodeKey.Conservative K valid) {walk fuel n : Nat}
    {st : WalkState K} {out : List K} (h : Pending t w valid bound st out n) (hwalk : n < walk)
    (hfuel : out.length < fuel) :
    (searchDrain t bound walk fuel st : Engine V _).runIn w = (.ok (out.map Except.ok), w) := by
  induction fuel generalizing n st out with
  | zero => exact absurd hfuel (Nat.not_lt_zero _)
  | succ fuel ih =>
    rw [searchDrain]
    rcases searchNext_spec hcons h hwalk with ⟨rfl, hrun⟩ | ⟨k, out', st', n', rfl, hle, hst, hrun⟩
    · rw [Engine.runIn_bind_ok hrun]
      rfl
    · rw [Engine.runIn_bind_ok hrun]
      exact (Engine.runIn_bind_ok (ih hst (by omega) (by simpa using hfuel))).trans rfl

theorem searchKeys_spec (hcons : NodeKey.Conservative K valid) {d : Nat} {T : SepTree LocalId K d}
    (hroot : T.id = t.root) (hT : Queued t w valid T) (bound : Bound) :
    Engine.Returns (fun fuel => t.searchKeys bound fuel) w
      ((T.keys.filter (NodeKey.inBound · bound)).map Except.ok) w := by
  have hpending : Pending t w valid bound ⟨[t.root], []⟩
      (T.keys.filter (NodeKey.inBound · bound)) (T.cells (layout V t.tenant)).length := by
    refine ⟨[⟨d, T⟩], by simp [hroot], fun x hx => ?_, by simp [found], by simp⟩
    rw [List.mem_singleton.mp hx]
    exact hT
  refine .intro (max (T.cells (layout V t.tenant)).length
    (T.keys.filter (NodeKey.inBound · bound)).length) fun fuel hfuel => ?_
  exact searchDrain_spec hcons hpending (by omega) (by omega)

theorem Run.search {tenant leafCap internalCap : Nat} {s : Store V} {S : Set K}
    (hcons : NodeKey.Conservative K valid) (hleaf : 1 ≤ leafCap)
    (h : Run V tenant leafCap internalCap t s S) (hvalid : ∀ k ∈ S, valid k) (bound : Bound)
    (hw : w.store = s) :
    ∃ found : List K, found.Pairwise (· < ·) ∧
      (∀ k, k ∈ found ↔ k ∈ S ∧ NodeKey.inBound k bound = true) ∧
      Engine.Returns (fun fuel => t.searchKeys bound fuel) w (found.map Except.ok) w := by
  obtain ⟨-, n, T, hT, -⟩ := h.ordered hleaf
  have hkeys : T.keys.Pairwise (· < ·) :=
    SepTree.itemKeys_flat T ▸ SepTree.itemKeys_pairwise hT.sorted
  have hqueued : Queued t w valid T :=
    ⟨hw ▸ hT.only.1, hT.sorted, fun k hk => hvalid k ((hT.mem_keys k).mp hk)⟩
  refine ⟨T.keys.filter (NodeKey.inBound · bound), hkeys.sublist List.filter_sublist, fun k => ?_,
    searchKeys_spec hcons hT.root hqueued bound⟩
  rw [List.mem_filter, hT.mem_keys]

end Stream

section LocalIds

theorem key_le_of_le {a b : LocalId} (h : a ≤ b) : a.key ≤ b.key := by
  have hpair : a.asPair ≤ b.asPair := h
  rw [LocalId.asPair, LocalId.asPair, Prod.Lex.toLex_le_toLex] at hpair
  rcases hpair with hlt | ⟨heq, -⟩
  · exact hlt.le
  · exact heq.le

theorem asU64_eq_some {bytes : List UInt8} {n : Nat} (h : Bound.asU64 bytes = some n) :
    bytes = beBytes 8 n ∧ n < 256 ^ 8 := by
  rw [Bound.asU64] at h
  split at h
  · rename_i hlen
    cases h
    have hlt := ofBeBytes_lt bytes
    have hback := beBytes_ofBeBytes bytes
    rw [hlen] at hlt hback
    exact ⟨hback.symm, hlt⟩
  · cases h

theorem createdAtRange_spec {bound : Bound} {n lo hi : Nat} (hn : n < 256 ^ 8)
    (hrange : bound.createdAtRange = some (lo, hi)) (h : bound.contains (beBytes 8 n) = true) :
    lo ≤ n ∧ n ≤ hi := by
  cases bound with
  | all => cases hrange
  | exact k =>
    obtain ⟨m, hm, heq⟩ := Option.map_eq_some_iff.mp hrange
    obtain ⟨rfl, hlt⟩ := asU64_eq_some hm
    have hnm : n = m := (beBytes_inj hn hlt).mp (by simpa [Bound.contains] using h)
    simp only [Prod.mk.injEq] at heq
    omega
  | range b c =>
    obtain ⟨m, hm, hinner⟩ := Option.bind_eq_some_iff.mp hrange
    obtain ⟨p, hp, hends⟩ := Option.bind_eq_some_iff.mp hinner
    obtain ⟨rfl, hlm⟩ := asU64_eq_some hm
    obtain ⟨rfl, hlp⟩ := asU64_eq_some hp
    obtain ⟨hge, hlt⟩ : beBytes 8 m ≤ beBytes 8 n ∧ beBytes 8 n < beBytes 8 p := by
      simpa [Bound.contains] using h
    have hmn : m ≤ n := Nat.not_lt.mp fun hlt => absurd ((beBytes_lt hn hlm).mpr hlt) (not_lt.mpr hge)
    have hnp : n < p := (beBytes_lt hn hlp).mp hlt
    have hpos : p ≠ 0 := by omega
    rw [if_neg hpos] at hends
    simp only [Option.pure_def, Option.some.injEq, Prod.mk.injEq] at hends
    omega
  | keyPrefix start =>
    rw [Bound.createdAtRange] at hrange
    split at hrange
    · cases hrange
    · cases hrange
      obtain ⟨rest, hrest⟩ : start <+: beBytes 8 n := by simpa [Bound.contains] using h
      have hlen := congrArg List.length hrest
      rw [List.length_append, length_beBytes] at hlen
      have hext := ofBeBytes_extends start rest
      rw [hrest, ofBeBytes_beBytes hn, show rest.length = 8 - start.length by omega] at hext
      exact hext

theorem localId_conservative :
    NodeKey.Conservative LocalId fun k => k.key < 2 ^ 64 := by
  intro bound min max k hvalid hmin hmax hin
  simp only [NodeKey.mayIntersect]
  cases hrange : bound.createdAtRange with
  | none => rfl
  | some r =>
    obtain ⟨lo, hi⟩ := r
    have hcontains : bound.contains (beBytes 8 k.key) = true := by
      cases bound with
      | all => cases hrange
      | exact key => exact hin
      | range b c => exact hin
      | keyPrefix start => exact hin
    obtain ⟨hlo, hhi⟩ := createdAtRange_spec (by simpa using hvalid) hrange hcontains
    have hleft : min.elim 0 LocalId.key ≤ k.key := by
      cases min with
      | none => exact Nat.zero_le _
      | some m => exact key_le_of_le (hmin m rfl)
    have hright : k.key ≤ max.elim (2 ^ 64 - 1) LocalId.key := by
      cases max with
      | none => exact Nat.le_sub_one_of_lt hvalid
      | some m => exact key_le_of_le (hmax m rfl).le
    simpa using ⟨hlo.trans hright, hleft.trans hhi⟩

end LocalIds

end WaveDb.Index
