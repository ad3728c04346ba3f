import WaveDb.Index.BpTree
import WaveDb.Lib.SepTree

namespace WaveDb.Index

open WaveDb.Lib WaveDb.Core

section Search

variable {K : Type} [LinearOrder K]

-- Where a target stands in an ascending list: on one of its elements or
-- between two of them.
theorem exists_split (keys : List K) (target : K) (hs : keys.Pairwise (· < ·)) :
    ∃ a b, (∀ k ∈ a, k < target) ∧ (∀ k ∈ b, target < k) ∧
      (keys = a ++ target :: b ∨ keys = a ++ b) := by
  induction keys with
  | nil => exact ⟨[], [], by simp, by simp, .inr rfl⟩
  | cons k keys ih =>
    obtain ⟨hk, hs⟩ := List.pairwise_cons.mp hs
    obtain ⟨a, b, ha, hb, heq⟩ := ih hs
    rcases lt_trichotomy k target with hlt | rfl | hgt
    · refine ⟨k :: a, b, ?_, hb, ?_⟩
      · intro x hx
        rcases List.mem_cons.mp hx with rfl | hx
        · exact hlt
        · exact ha x hx
      · rcases heq with rfl | rfl
        · exact .inl rfl
        · exact .inr rfl
    · exact ⟨[], keys, by simp, hk, .inl rfl⟩
    · refine ⟨[], k :: keys, by simp, ?_, .inr rfl⟩
      intro x hx
      rcases List.mem_cons.mp hx with rfl | hx
      · exact hgt
      · exact hgt.trans (hk x hx)

theorem binarySearch_found {a b : List K} {target : K} (ha : ∀ k ∈ a, k < target) :
    binarySearch (a ++ target :: b) target = .ok a.length := by
  have hpos : ((a ++ target :: b).takeWhile (· < target)).length = a.length := by
    rw [List.takeWhile_append_of_pos (by simpa using ha)]
    simp
  simp [binarySearch, hpos]

theorem binarySearch_missing {a b : List K} {target : K} (ha : ∀ k ∈ a, k < target)
    (hb : ∀ k ∈ b, target < k) : binarySearch (a ++ b) target = .error a.length := by
  have hpos : ((a ++ b).takeWhile (· < target)).length = a.length := by
    rw [List.takeWhile_append_of_pos (by simpa using ha)]
    cases b with
    | nil => simp
    | cons k b => simp [(hb k (by simp)).le]
  have hne : (a ++ b)[a.length]? ≠ some target := by
    cases b with
    | nil => simp
    | cons k b => simpa using (hb k (by simp)).ne'
  simp [binarySearch, hpos, hne]

omit [LinearOrder K] in
theorem childId_join (before : List (LocalId × K)) (x : LocalId) (after : List (K × LocalId)) :
    childId (join before x after).1 (join before x after).2 before.length = x := by
  rcases List.eq_nil_or_concat before with rfl | ⟨init, e, rfl⟩
  · rfl
  · rw [List.concat_eq_append, join_snoc, List.length_append, List.length_singleton, childId,
      List.getD_eq_getElem?_getD, List.getElem?_map, getElem?_join]
    rfl

-- The descent goes into the child behind the last separator `<= target`.
theorem childAndIndex_join {before : List (LocalId × K)} {x : LocalId}
    {after : List (K × LocalId)} {target : K}
    (hs : (before.map Prod.snd).Pairwise (· < ·)) (hbefore : ∀ e ∈ before, e.2 ≤ target)
    (hafter : ∀ e ∈ after, target < e.1) :
    childAndIndex (join before x after).1 (join before x after).2 target =
      (x, before.length) := by
  have hb : ∀ k ∈ after.map Prod.fst, target < k := by simpa using hafter
  have hchild := childId_join before x after
  rw [childAndIndex, map_fst_join]
  rcases List.eq_nil_or_concat before with rfl | ⟨init, e, rfl⟩
  · rw [List.map_nil, binarySearch_missing (by simp) hb]
    rfl
  · obtain ⟨c, s⟩ := e
    rw [List.concat_eq_append] at *
    rw [List.map_append, List.pairwise_append] at hs
    have hinit : ∀ k ∈ init.map Prod.snd, k < s := fun k hk => hs.2.2 k hk s (by simp)
    have hle : s ≤ target := hbefore (c, s) (by simp)
    rcases hle.eq_or_lt with rfl | hlt
    · rw [List.map_append, List.append_assoc, List.map_singleton, List.singleton_append,
        binarySearch_found hinit]
      simpa using hchild
    · rw [binarySearch_missing _ hb]
      · simpa using hchild
      · intro k hk
        rw [List.map_append, List.mem_append] at hk
        rcases hk with hk | hk
        · exact (hinit k hk).trans hlt
        · simpa using (List.mem_singleton.mp hk) ▸ hlt

end Search

section Descent

variable {V K : Type} [NodeCodec V K]

def layout (V : Type) [NodeCodec V K] (tenant : Nat) : Layout LocalId K Id V where
  addr node := node.toId tenant
  addr_injective _ _ h := LocalId.toId_inj.mp h
  leaf keys := NodeCodec.toBytes (NodeBody.leaf keys)
  node leftmost entries := NodeCodec.toBytes (NodeBody.internal leftmost entries)

-- The recorded path of a descent to the node `hole`, innermost frame first.
def frames : {d n : Nat} → Path LocalId K d n → LocalId → List (PathFrame K)
  | _, _, .nil, _ => []
  | _, _, .cons f p, hole =>
    ⟨f.id, (f.kidIds hole).1, (f.kidIds hole).2, f.before.length⟩ :: frames p f.id

variable [DecidableEq V] {t : BpTree} {w : World V}

theorem load_eq {node : LocalId} {body : NodeBody K}
    (h : w.store (node.toId t.tenant) = some (NodeCodec.toBytes body)) :
    (t.load node : Engine V (NodeBody K)).runIn w = (.ok body, w) := by
  rw [BpTree.load, Engine.runIn_bind_ok (Engine.runIn_getOf _ _ _), h]
  simp only [NodeCodec.fromBytes_toBytes]
  rfl

theorem load_leaf {id : LocalId} {keys : List K}
    (h : Holds w.store ((SepTree.leaf id keys).cells (layout V t.tenant))) :
    (t.load id).runIn w = (.ok (NodeBody.leaf keys), w) :=
  load_eq (h _ (List.mem_singleton_self _))

theorem load_fill {d : Nat} {f : Frame LocalId K d} {x : SepTree LocalId K d}
    (h : Holds w.store ((f.fill x).cells (layout V t.tenant))) :
    (t.load f.id).runIn w =
      (.ok (NodeBody.internal (f.kidIds x.id).1 (f.kidIds x.id).2), w) := by
  apply load_eq
  have hbody := h _ List.mem_cons_self
  rwa [← Frame.fill, f.body_fill] at hbody

variable [LinearOrder K]

-- Everything left of the hole is before the target, and everything right of
-- it is behind.
structure Around {d n : Nat} (p : Path LocalId K d n) (target : K) : Prop where
  pre : ∀ i ∈ p.pre, i < keyItem target
  post : ∀ i ∈ p.post, keyItem target < i

theorem around_nil {n : Nat} (target : K) : Around (Path.nil : Path LocalId K n n) target :=
  ⟨by simp [Path.pre], by simp [Path.post]⟩

theorem exists_frame {d : Nat} (id : LocalId) (first : SepTree LocalId K d)
    (rest : List (K × SepTree LocalId K d)) (target : K)
    (hs : (SepTree.node id first rest).flat.Pairwise (· < ·)) :
    ∃ (f : Frame LocalId K d) (child : SepTree LocalId K d),
      f.fill child = .node id first rest ∧ (∀ i ∈ f.pre, i < keyItem target) ∧
      ∀ i ∈ f.post, keyItem target < i := by
  induction rest generalizing first with
  | nil => exact ⟨⟨id, [], []⟩, first, rfl, by simp [Frame.pre], by simp [Frame.post]⟩
  | cons e rest ih =>
    obtain ⟨s, child⟩ := e
    rw [SepTree.flat_node, List.flatMap_cons, List.cons_append, List.pairwise_append,
      List.pairwise_cons] at hs
    obtain ⟨-, ⟨hsep, hrest⟩, hfirst⟩ := hs
    rcases lt_or_ge target s with hlt | hle
    · -- The first separator is behind the target, and the rest is behind it.
      refine ⟨⟨id, [], (s, child) :: rest⟩, first, rfl, by simp [Frame.pre], ?_⟩
      intro i hi
      have hts : keyItem target < sepItem s := keyItem_lt_sepItem.mpr hlt
      simp only [Frame.post, List.flatMap_cons, List.cons_append, List.mem_cons] at hi
      rcases hi with rfl | hi
      · exact hts
      · exact hts.trans (hsep i hi)
    · obtain ⟨f, x, hfill, hpre, hpost⟩ := ih child hrest
      have hid : f.id = id := congrArg SepTree.id hfill
      have hkids : join f.before x f.after = (child, rest) :=
        Prod.ext (congrArg Inner.first hfill) (congrArg Inner.rest hfill)
      refine ⟨⟨id, (first, s) :: f.before, f.after⟩, x, ?_, ?_, hpost⟩
      · simp [Frame.fill, join, hkids]
      · intro i hi
        simp only [Frame.pre, List.flatMap_cons, List.append_assoc, List.mem_append,
          List.mem_singleton] at hi
        have hst : sepItem s < keyItem target := sepItem_lt_keyItem.mpr hle
        rcases hi with hi | rfl | hi
        · exact (hfirst i hi _ List.mem_cons_self).trans hst
        · exact hst
        · exact hpre i hi

omit [LinearOrder K] in
theorem sublist_pre {d : Nat} (f : Frame LocalId K d) :
    (f.before.map fun e => sepItem e.2).Sublist f.pre := by
  rw [Frame.pre]
  induction f.before with
  | nil => simp
  | cons e before ih =>
    rw [List.map_cons, List.flatMap_cons, List.append_assoc]
    exact (ih.cons_cons _).trans (List.sublist_append_right _ _)

theorem childAndIndex_kidIds {d : Nat} {f : Frame LocalId K d} {target : K} (hole : LocalId)
    (hs : f.pre.Pairwise (· < ·)) (hpre : ∀ i ∈ f.pre, i < keyItem target)
    (hpost : ∀ i ∈ f.post, keyItem target < i) :
    childAndIndex (f.kidIds hole).1 (f.kidIds hole).2 target = (hole, f.before.length) := by
  have hseps := hs.sublist (sublist_pre f)
  have hmem : ∀ e ∈ f.before, sepItem e.2 ∈ f.pre := fun e he =>
    (sublist_pre f).subset (List.mem_map_of_mem he)
  rw [Frame.kidIds, childAndIndex_join, List.length_map]
  · simpa [List.pairwise_map] using hseps
  · intro e he
    obtain ⟨e', he', rfl⟩ := List.mem_map.mp he
    exact sepItem_lt_keyItem.mp (hpre _ (hmem e' he'))
  · intro e he
    obtain ⟨e', he', rfl⟩ := List.mem_map.mp he
    exact keyItem_lt_sepItem.mp (hpost _ (List.mem_flatMap.mpr ⟨e', he', List.mem_cons_self⟩))

theorem descend_eq {n : Nat} (target : K) {d : Nat} (sub : SepTree LocalId K d)
    (p : Path LocalId K d n) (hs : (p.plug sub).flat.Pairwise (· < ·)) (ha : Around p target)
    (hheld : Holds w.store (sub.cells (layout V t.tenant))) :
    ∃ (id : LocalId) (keys : List K) (q : Path LocalId K 0 n),
      q.plug (.leaf id keys) = p.plug sub ∧ Around q target ∧ ∀ fuel, d < fuel →
        (t.descend target fuel sub.id (frames p sub.id)).runIn w =
          (.ok (keys, id, frames q id), w) := by
  induction d with
  | zero =>
    obtain ⟨id, keys, rfl⟩ := sub.exists_leaf
    refine ⟨id, keys, p, rfl, ha, fun fuel hfuel => ?_⟩
    obtain ⟨fuel, rfl⟩ := Nat.exists_eq_succ_of_ne_zero (Nat.ne_of_gt hfuel)
    rw [SepTree.id_leaf, BpTree.descend, Engine.runIn_bind_ok (load_leaf hheld)]
    rfl
  | succ d ih =>
    obtain ⟨id, first, rest, rfl⟩ := sub.exists_node
    have hs' : (SepTree.node id first rest).flat.Pairwise (· < ·) := by
      rw [p.flat_plug, List.append_assoc, List.pairwise_append, List.pairwise_append] at hs
      exact hs.2.1.1
    obtain ⟨f, child, hfill, hpre, hpost⟩ := exists_frame id first rest target hs'
    rw [← hfill] at hheld hs hs' ⊢
    rw [f.flat_fill, List.append_assoc, List.pairwise_append] at hs'
    have hchild : Holds w.store (child.cells (layout V t.tenant)) :=
      (holds_append.mp (hheld.perm (f.cells_fill _ child))).1
    have ha' : Around (.cons f p) target := by
      constructor
      · intro i hi
        exact (List.mem_append.mp hi).elim (ha.pre i) (hpre i)
      · intro i hi
        exact (List.mem_append.mp hi).elim (hpost i) (ha.post i)
    have hstep (fuel : Nat) : (t.descend target (fuel + 1) f.id (frames p f.id)).runIn w =
        (t.descend target fuel child.id (frames (.cons f p) child.id)).runIn w := by
      rw [BpTree.descend, Engine.runIn_bind_ok (load_fill hheld)]
      simp only [childAndIndex_kidIds child.id hs'.1 hpre hpost]
      rfl
    obtain ⟨leafId, keys, q, hq, haq, hrun⟩ := ih child (.cons f p) hs ha' hchild
    refine ⟨leafId, keys, q, hq, haq, fun fuel hfuel => ?_⟩
    obtain ⟨fuel, rfl⟩ := Nat.exists_eq_succ_of_ne_zero (Nat.ne_of_gt (Nat.zero_lt_of_lt hfuel))
    exact (hstep fuel).trans (hrun fuel (by omega))

end Descent

end WaveDb.Index
