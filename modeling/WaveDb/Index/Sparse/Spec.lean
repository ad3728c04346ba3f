import WaveDb.Index.Sparse.Climb
import WaveDb.Index.BpTree.Descent
import WaveDb.Lib.Keyed

namespace WaveDb.Index

open WaveDb.Lib WaveDb.Core

section Slots

variable {K : Type} [LinearOrder K]

def covering (slots : List (Slot K)) (key : K) : Option (Slot K) :=
  (slots.takeWhile fun s => s.first ≤ key).getLast?

theorem covering_eq_none {a : List (Slot K)} {key : K} (h : ∀ s ∈ a, key < s.first) :
    covering a key = none := by
  cases a with
  | nil => rfl
  | cons s a => simp [covering, h s List.mem_cons_self]

theorem covering_append_left {a b : List (Slot K)} {key : K} (hb : ∀ s ∈ b, key < s.first) :
    covering (a ++ b) key = covering a key := by
  have hnil : b.takeWhile (fun s => s.first ≤ key) = [] := by
    simpa [covering] using covering_eq_none hb
  rw [covering, covering, List.takeWhile_append, hnil, List.append_nil]
  split
  · rename_i hlen
    rw [(List.takeWhile_prefix _).eq_of_length hlen]
  · rfl

theorem covering_append_right {a b : List (Slot K)} {key : K} (ha : ∀ s ∈ a, s.first ≤ key)
    (hb : ∃ s ∈ b, s.first ≤ key) (hs : Ascending Slot.first b) :
    covering (a ++ b) key = covering b key := by
  have hne : b.takeWhile (fun s => s.first ≤ key) ≠ [] := by
    obtain ⟨s, hmem, hle⟩ := hb
    cases b with
    | nil => cases hmem
    | cons r b =>
      have hr : r.first ≤ key := by
        rcases List.mem_cons.mp hmem with rfl | hmem
        · exact hle
        · exact ((List.pairwise_cons.mp hs).1 s hmem).le.trans hle
      simp [hr]
  rw [covering, covering, List.takeWhile_append_of_pos (by simpa using ha),
    List.getLast?_append_of_ne_nil _ hne]

theorem covering_self {slots : List (Slot K)} (hs : Ascending Slot.first slots) {slot : Slot K}
    (h : slot ∈ slots) : covering slots slot.first = some slot := by
  obtain ⟨a, b, rfl⟩ := List.append_of_mem h
  obtain ⟨-, hb, hcross⟩ := hs.append
  have hsingle : Ascending Slot.first [slot] := List.pairwise_singleton _ _
  rw [← List.singleton_append, ← List.append_assoc,
    covering_append_left (List.pairwise_cons.mp hb).1,
    covering_append_right (fun x hx => (hcross x hx slot List.mem_cons_self).le)
      ⟨slot, List.mem_cons_self, le_rfl⟩ hsingle]
  simp [covering]

theorem getElem?_covering {slots : List (Slot K)} {key : K} {i : Nat}
    (h : (slots.takeWhile fun s => s.first ≤ key).length = i + 1) :
    slots[i]? = covering slots key := by
  have hpre : (slots.takeWhile fun s => decide (s.first ≤ key)) <+: slots := List.takeWhile_prefix _
  rw [covering, List.getLast?_eq_getElem?, h, Nat.add_sub_cancel]
  obtain ⟨rest, hrest⟩ := hpre
  conv_lhs => rw [← hrest]
  rw [List.getElem?_append_left (by omega)]

end Slots

section Search

variable {K : Type} [LinearOrder K]

-- The bisection keeps everything before `lo` at or below the target and
-- everything from `hi` on above it.
theorem bisect_spec {keys : List K} (hs : keys.Pairwise (· < ·)) (target : K) (lo hi : Nat)
    (hle : lo ≤ hi) (hhi : hi ≤ keys.length)
    (hlow : ∀ i (h : i < keys.length), i < lo → keys[i] ≤ target)
    (hhigh : ∀ i (h : i < keys.length), hi ≤ i → target < keys[i]) :
    SparseNode.bisect keys target lo hi = (keys.takeWhile (· ≤ target)).length := by
  induction hn : hi - lo using Nat.strong_induction_on generalizing lo hi with
  | _ n ih =>
    rw [SparseNode.bisect]
    by_cases hlt : lo < hi
    · rw [if_pos hlt]
      have hmid : lo + (hi - lo) / 2 < keys.length := by omega
      rw [List.getElem?_eq_getElem hmid]
      simp only
      by_cases hk : keys[lo + (hi - lo) / 2] ≤ target
      · rw [if_pos hk]
        refine ih _ ?_ _ _ ?_ hhi (fun i h hi' => ?_) hhigh rfl
        · omega
        · omega
        · rcases Nat.lt_or_ge i (lo + (hi - lo) / 2) with hlt' | hge
          · exact (List.pairwise_iff_getElem.mp hs i _ h hmid hlt').le.trans hk
          · obtain rfl : i = lo + (hi - lo) / 2 := by omega
            exact hk
      · rw [if_neg hk]
        refine ih _ ?_ _ _ ?_ (by omega) hlow (fun i h hi' => ?_) rfl
        · omega
        · omega
        · rcases Nat.lt_or_ge (lo + (hi - lo) / 2) i with hlt' | hge
          · exact (not_le.mp hk).trans (List.pairwise_iff_getElem.mp hs _ i hmid h hlt')
          · obtain rfl : i = lo + (hi - lo) / 2 := by omega
            exact not_le.mp hk
    · rw [if_neg hlt]
      obtain rfl : lo = hi := by omega
      have hsplit : keys = keys.take lo ++ keys.drop lo := (List.take_append_drop lo keys).symm
      have htake : ∀ k ∈ keys.take lo, k ≤ target := by
        intro k hk
        obtain ⟨i, hi, rfl⟩ := List.getElem_of_mem hk
        rw [List.length_take] at hi
        rw [List.getElem_take]
        exact hlow i (by omega) (by omega)
      have hdrop : (keys.drop lo).takeWhile (· ≤ target) = [] := by
        rcases Nat.lt_or_ge lo keys.length with hlen | hlen
        · rw [List.drop_eq_getElem_cons hlen, List.takeWhile_cons_of_neg]
          simpa using hhigh lo hlen le_rfl
        · rw [List.drop_eq_nil_of_le hlen]
          rfl
      rw [hsplit, List.takeWhile_append_of_pos (by simpa using htake), hdrop]
      simp [hhi]

theorem lastAtOrBelow_eq {keys : List K} (hs : keys.Pairwise (· < ·)) (target : K) :
    SparseNode.lastAtOrBelow keys target =
      match (keys.takeWhile (· ≤ target)).length with
      | 0 => none
      | i + 1 => some i := by
  have hbisect := bisect_spec hs target 0 keys.length (Nat.zero_le _) le_rfl
    (fun i _ h => absurd h (Nat.not_lt_zero i)) (fun i h h' => absurd h (Nat.not_lt.mpr h'))
  cases hcount : (keys.takeWhile (· ≤ target)).length with
  | zero => simp only [SparseNode.lastAtOrBelow, hbisect, hcount]
  | succ i => simp only [SparseNode.lastAtOrBelow, hbisect, hcount]

theorem search_keyed {α : Type} {f : α → K} {xs : List α} (hs : Ascending f xs) (key : K) :
    ∃ a b, below f key xs = a ∧ above f key xs = b ∧
      ((xs = a ++ b ∧ binarySearch (xs.map f) key = .error a.length) ∨
        ∃ x, f x = key ∧ xs = a ++ x :: b ∧ binarySearch (xs.map f) key = .ok a.length) := by
  have hb : ∀ k ∈ (below f key xs).map f, k < key := by
    intro k hk
    obtain ⟨x, hx, rfl⟩ := List.mem_map.mp hk
    exact (mem_below.mp hx).2
  have ha : ∀ k ∈ (above f key xs).map f, key < k := by
    intro k hk
    obtain ⟨x, hx, rfl⟩ := List.mem_map.mp hk
    exact (mem_above.mp hx).2
  refine ⟨_, _, rfl, rfl, ?_⟩
  rcases exists_parts hs key with heq | ⟨x, hfirst, heq⟩
  · refine .inl ⟨heq, ?_⟩
    have hsearch := binarySearch_missing hb ha
    rwa [← List.map_append, ← heq, List.length_map] at hsearch
  · refine .inr ⟨x, hfirst, heq, ?_⟩
    have hsearch := binarySearch_found (b := (above f key xs).map f) hb
    rwa [← hfirst, ← List.map_cons, ← List.map_append, hfirst, ← heq, List.length_map] at hsearch

end Search

section Descent

variable {V K : Type} [LaneCodec V (SparseNode K)] [LinearOrder K] {t : SparseTree} {d n : Nat}

theorem exists_first {c : RunTree LocalId (Slot K) d} (hc : c.Full) (h : Ascending Slot.first c.flat) :
    ∃ s b, c.flat.head? = some s ∧ branch c.label = some b ∧ b.first = s.first ∧
      b.node = c.id ∧ s ∈ c.flat ∧ ∀ r ∈ c.flat, s.first ≤ r.first := by
  cases hflat : c.flat with
  | nil => exact absurd hflat hc.flat_ne_nil
  | cons s rest =>
    rw [hflat] at h
    refine ⟨s, ⟨s.first, c.id, ((s :: rest).map Slot.count).sum⟩, rfl, ?_, rfl, rfl,
      List.mem_cons_self, fun r hr => ?_⟩
    · simp [branch, RunTree.label, hflat]
    · rcases List.mem_cons.mp hr with rfl | hr
      · exact le_rfl
      · exact ((List.pairwise_cons.mp h).1 r hr).le

def startsAtOrBelow (key : K) (kids : List (RunTree LocalId (Slot K) d)) : Nat :=
  ((branches (kids.map RunTree.label)).takeWhile fun b => b.first ≤ key).length

theorem startsAtOrBelow_cons {key : K} {c : RunTree LocalId (Slot K) d} {b : Branch K}
    (hb : branch c.label = some b) (kids : List (RunTree LocalId (Slot K) d)) :
    startsAtOrBelow key (c :: kids) = if b.first ≤ key then startsAtOrBelow key kids + 1 else 0 := by
  have hcons : branches ((c :: kids).map RunTree.label) = b :: branches (kids.map RunTree.label) := by
    simp [branches, hb]
  rw [startsAtOrBelow, hcons]
  by_cases h : b.first ≤ key <;> simp [h, startsAtOrBelow]

-- Everything before the child to go to is below the key and everything after it above.
-- It starts at or below the key unless no child does.
theorem exists_child (key : K) (kids : List (RunTree LocalId (Slot K) d)) (hne : kids ≠ [])
    (hfull : ∀ c ∈ kids, c.Full) (hs : Ascending Slot.first (kids.flatMap RunTree.flat)) :
    ∃ before c after, kids = before ++ c :: after ∧
      (∀ s ∈ before.flatMap RunTree.flat, s.first < key) ∧
      (∀ s ∈ after.flatMap RunTree.flat, key < s.first) ∧
      ((startsAtOrBelow key kids = before.length + 1 ∧ ∃ s ∈ c.flat, s.first ≤ key) ∨
        (startsAtOrBelow key kids = 0 ∧ before = [] ∧ ∀ s ∈ c.flat, key < s.first)) := by
  induction kids with
  | nil => exact absurd rfl hne
  | cons c rest ih =>
    rw [List.flatMap_cons] at hs
    obtain ⟨hsc, hsr, hcr⟩ := hs.append
    obtain ⟨s, b, -, hb, hbs, -, hmem, hmin⟩ := exists_first (hfull c List.mem_cons_self) hsc
    rw [startsAtOrBelow_cons hb, hbs]
    by_cases hlow : s.first ≤ key
    · rw [if_pos hlow]
      cases rest with
      | nil => exact ⟨[], c, [], rfl, by simp, by simp, .inl ⟨rfl, s, hmem, hlow⟩⟩
      | cons c' rest =>
        obtain ⟨before, x, after, heq, hbefore, hafter, hcase⟩ := ih (by simp)
          (fun y hy => hfull y (List.mem_cons_of_mem _ hy)) hsr
        rcases hcase with ⟨hcount, hx⟩ | ⟨hcount, rfl, hx⟩
        · obtain ⟨y, hy, hyk⟩ := hx
          have hyr : y ∈ (c' :: rest).flatMap RunTree.flat := by
            rw [heq]
            simp [hy]
          refine ⟨c :: before, x, after, by rw [heq]; rfl, ?_, hafter,
            .inl ⟨by rw [hcount]; rfl, y, hy, hyk⟩⟩
          intro r hr
          rw [List.flatMap_cons, List.mem_append] at hr
          rcases hr with hr | hr
          · exact (hcr r hr y hyr).trans_le hyk
          · exact hbefore r hr
        · rw [List.nil_append] at heq
          refine ⟨[], c, c' :: rest, rfl, by simp, ?_, .inl ⟨by rw [hcount]; rfl, s, hmem, hlow⟩⟩
          intro r hr
          rw [heq, List.flatMap_cons, List.mem_append] at hr
          exact hr.elim (hx r) (hafter r)
    · rw [if_neg hlow]
      refine ⟨[], c, rest, rfl, by simp, fun r hr => ?_, .inr ⟨rfl, rfl, fun r hr => ?_⟩⟩
      · exact (not_le.mp hlow).trans (hcr s hmem r hr)
      · exact (not_le.mp hlow).trans_le (hmin r hr)

variable [DecidableEq V] {w : World V}

omit [LinearOrder K] in
theorem load_sparse {x : RunTree LocalId (Slot K) d}
    (h : Holds w.store (x.cells (sparseLayout V t))) :
    (t.load x.id : Engine V (SparseNode K)).runIn w = (.ok (sparseNode x), w) := by
  rw [RunTree.cells_eq, body_sparseLayout] at h
  have hx : w.store (x.id.toId t.tenant) = some (LaneCodec.toBytes t.laneHash (sparseNode x)) :=
    h _ List.mem_cons_self
  rw [SparseTree.load, Engine.runIn_bind_ok (Engine.runIn_getOf _ _ _), hx]
  simp only [LaneCodec.fromBytes_toBytes]
  rfl

theorem branchFor_eq {key : K} {before after : List (RunTree LocalId (Slot K) d)}
    {c : RunTree LocalId (Slot K) d} (hfull : ∀ x ∈ before ++ c :: after, x.Full)
    (hcount : startsAtOrBelow key (before ++ c :: after) - 1 = before.length) :
    SparseTree.branchFor (branches ((before ++ c :: after).map RunTree.label)) key =
      (branches (before.map RunTree.label)).length ∧
    ∃ b, (branches ((before ++ c :: after).map RunTree.label))[(branches
      (before.map RunTree.label)).length]? = some b ∧ b.node = c.id := by
  have hlen : (branches (before.map RunTree.label)).length = before.length := by
    rw [length_branches (labels_ne_nil fun x hx => hfull x (by simp [hx])), List.length_map]
  refine ⟨by rw [SparseTree.branchFor, hlen]; exact hcount, ?_⟩
  obtain ⟨b, hb⟩ := exists_branch c.label (hfull c (by simp)).flat_ne_nil
  have hnode : b.node = c.id := by
    obtain ⟨s, -, rfl⟩ := Option.map_eq_some_iff.mp hb
    rfl
  refine ⟨b, ?_, hnode⟩
  rw [List.map_append, branches_append, List.getElem?_append_right le_rfl, Nat.sub_self]
  simp [branches, hb]

theorem sparse_descend_eq (key : K) : {d : Nat} → (sub : RunTree LocalId (Slot K) d) →
    (p : RunTree.Path LocalId (Slot K) d n) → RootFull sub → Ascending Slot.first sub.flat → p.Full →
    Shown p sub.flat → (∀ s ∈ p.pre, s.first < key) → (∀ s ∈ p.post, key < s.first) →
    Holds w.store (sub.cells (sparseLayout V t)) →
    ∃ (id : LocalId) (slots : List (Slot K)) (q : RunTree.Path LocalId (Slot K) 0 n),
      q.plug (.leaf id slots) = p.plug sub ∧ q.Full ∧ Shown q slots ∧
      (∀ s ∈ q.pre, s.first < key) ∧ (∀ s ∈ q.post, key < s.first) ∧ ∀ fuel, d < fuel →
        (t.descend key fuel sub.id (sparseFrames p sub.label)).runIn w =
          (.ok (sparseFrames q (id, slots), id, slots), w)
  | 0, .leaf id slots, p, _, _, hp, hshown, hpre, hpost, hheld => by
      refine ⟨id, slots, p, rfl, hp, hshown, hpre, hpost, fun fuel hfuel => ?_⟩
      obtain ⟨fuel, rfl⟩ := Nat.exists_eq_succ_of_ne_zero (Nat.ne_of_gt hfuel)
      rw [SparseTree.descend, Engine.runIn_bind_ok (load_sparse hheld)]
      rfl
  | d + 1, .node id kids, p, hroot, hs, hp, hshown, hpre, hpost, hheld => by
      obtain ⟨hfull, hlen⟩ := hroot
      have hne : kids ≠ [] := by
        rintro rfl
        exact hlen (Nat.succ_pos d) rfl
      obtain ⟨before, c, after, rfl, hbefore, hafter, hcase⟩ := exists_child key kids hne hfull hs
      have hcount : startsAtOrBelow key (before ++ c :: after) - 1 = before.length := by
        rcases hcase with ⟨h, -⟩ | ⟨h, rfl, -⟩
        · rw [h, Nat.add_sub_cancel]
        · rw [h, List.length_nil]
      obtain ⟨hidx, b, hget, hnode⟩ := branchFor_eq hfull hcount
      let f : RunTree.Frame LocalId (Slot K) d := ⟨id, before, after⟩
      have hfill : f.fill [c] = .node id (before ++ c :: after) := by simp [f, RunTree.Frame.fill]
      have hc := hfull c (by simp)
      have hsc : Ascending Slot.first c.flat := by
        have h : Ascending Slot.first (before.flatMap RunTree.flat ++ (c.flat ++ after.flatMap RunTree.flat)) := by
          simpa using hs
        exact h.append.2.1.append.1
      obtain ⟨leafId, slots, q, hq, hqf, hqs, hqpre, hqpost, hrun⟩ := sparse_descend_eq key c
        (.cons f p) ⟨((RunTree.full_iff c).mp hc).2, fun _ => ((RunTree.full_iff c).mp hc).1⟩ hsc
        ⟨fun x hx => hfull x (by
          rcases List.mem_append.mp hx with hx | hx
          · simp [show x ∈ before from hx]
          · simp [show x ∈ after from hx]), hp⟩ hc.flat_ne_nil
        (fun s hm => (List.mem_append.mp hm).elim (hpre s) (hbefore s))
        (fun s hm => (List.mem_append.mp hm).elim (hafter s) (hpost s))
        (fun cell hcell => hheld cell (List.mem_cons_of_mem _ (List.mem_flatMap.mpr
          ⟨c, by simp, hcell⟩)))
      refine ⟨leafId, slots, q, ?_, hqf, hqs, hqpre, hqpost, fun fuel hfuel => ?_⟩
      · rw [hq, RunTree.Path.plug, hfill]
      · obtain ⟨fuel, rfl⟩ := Nat.exists_eq_succ_of_ne_zero (Nat.ne_of_gt (Nat.zero_lt_of_lt hfuel))
        rw [← hrun fuel (by omega), SparseTree.descend, Engine.runIn_bind_ok (load_sparse hheld)]
        have hlabel : (RunTree.node id (before ++ c :: after)).label =
            (f.id, f.pre ++ c.label.2 ++ f.post) := by
          simp [RunTree.label, f, RunTree.Frame.pre, RunTree.Frame.post]
        simp only [sparseNode, hidx, hget, hnode, hlabel]
        rw [sparseFrames, List.map_append]
        rfl

theorem branches_ascending {kids : List (RunTree LocalId (Slot K) d)} (hfull : ∀ c ∈ kids, c.Full)
    (hs : Ascending Slot.first (kids.flatMap RunTree.flat)) :
    ((branches (kids.map RunTree.label)).map Branch.first).Pairwise (· < ·) ∧
      ∀ k ∈ (branches (kids.map RunTree.label)).map Branch.first,
        ∃ s ∈ kids.flatMap RunTree.flat, s.first = k := by
  induction kids with
  | nil => simp [branches]
  | cons c kids ih =>
    rw [List.flatMap_cons] at hs
    obtain ⟨hsc, hsr, hcr⟩ := hs.append
    obtain ⟨s, b, -, hb, hbs, -, hmem, -⟩ := exists_first (hfull c List.mem_cons_self) hsc
    obtain ⟨ih, ihm⟩ := ih (fun x hx => hfull x (List.mem_cons_of_mem _ hx)) hsr
    have hcons : (branches ((c :: kids).map RunTree.label)).map Branch.first =
        s.first :: (branches (kids.map RunTree.label)).map Branch.first := by
      simp [branches, hb, hbs]
    rw [hcons, List.pairwise_cons, List.flatMap_cons]
    refine ⟨⟨fun k hk => ?_, ih⟩, fun k hk => ?_⟩
    · obtain ⟨r, hr, rfl⟩ := ihm k hk
      exact hcr s hmem r hr
    · rcases List.mem_cons.mp hk with rfl | hk
      · exact ⟨s, List.mem_append_left _ hmem, rfl⟩
      · obtain ⟨r, hr, rfl⟩ := ihm k hk
        exact ⟨r, List.mem_append_right _ hr, rfl⟩

theorem findFrom_eq (key : K) : {d : Nat} → (sub : RunTree LocalId (Slot K) d) →
    RootFull sub → Ascending Slot.first sub.flat → Holds w.store (sub.cells (sparseLayout V t)) →
    (fuel : Nat) → d < fuel →
    (t.findFrom key fuel sub.id).runIn w = (.ok (covering sub.flat key), w)
  | _, _, _, _, _, 0, hfuel => absurd hfuel (Nat.not_lt_zero _)
  | 0, .leaf id slots, _, hs, hheld, fuel + 1, _ => by
      rw [SparseTree.findFrom, Engine.runIn_bind_ok (load_sparse hheld)]
      have hkeys : (slots.map Slot.first).Pairwise (· < ·) := List.pairwise_map.mpr hs
      have hlen : ((slots.map Slot.first).takeWhile (· ≤ key)).length =
          (slots.takeWhile fun s => s.first ≤ key).length := by
        rw [List.takeWhile_map, List.length_map]
        rfl
      simp only [sparseNode, SparseNode.stepToKey, lastAtOrBelow_eq hkeys, hlen]
      cases hcount : (slots.takeWhile fun s => decide (s.first ≤ key)).length with
      | zero =>
        have hnone : covering slots key = none := by
          rw [covering, List.eq_nil_of_length_eq_zero hcount]
          rfl
        rw [RunTree.flat_leaf, hnone]
        rfl
      | succ i =>
        have hget := getElem?_covering hcount
        rw [RunTree.flat_leaf, ← hget]
        cases hslot : slots[i]? with
        | none => simp [hslot]
        | some slot => simp [hslot]
  | d + 1, .node id kids, hroot, hs, hheld, fuel + 1, hfuel => by
      rw [SparseTree.findFrom, Engine.runIn_bind_ok (load_sparse hheld)]
      obtain ⟨hfull, hlen⟩ := hroot
      have hne : kids ≠ [] := by
        rintro rfl
        exact hlen (Nat.succ_pos d) rfl
      have hcount : (((branches (kids.map RunTree.label)).map Branch.first).takeWhile
          (· ≤ key)).length = startsAtOrBelow key kids := by
        rw [List.takeWhile_map, List.length_map]
        rfl
      obtain ⟨before, c, after, rfl, hbefore, hafter, hcase⟩ := exists_child key kids hne hfull hs
      simp only [sparseNode, SparseNode.stepToKey,
        lastAtOrBelow_eq (branches_ascending hfull hs).1, hcount]
      have hsplit : Ascending Slot.first (before.flatMap RunTree.flat ++
          (c.flat ++ after.flatMap RunTree.flat)) := by simpa using hs
      have hflat : (RunTree.node id (before ++ c :: after)).flat =
          before.flatMap RunTree.flat ++ (c.flat ++ after.flatMap RunTree.flat) := by simp
      rw [hflat]
      rcases hcase with ⟨h, s, hsc, hle⟩ | ⟨h, rfl, hc⟩
      · obtain ⟨-, b, hget, hnode⟩ := branchFor_eq hfull (by rw [h, Nat.add_sub_cancel])
        rw [length_branches (labels_ne_nil fun x hx => hfull x (by simp [hx])),
          List.length_map] at hget
        have hc := (RunTree.full_iff c).mp (hfull c (by simp))
        have hfind := findFrom_eq key c ⟨hc.2, fun _ => hc.1⟩ hsplit.append.2.1.append.1
          (fun cell hcell => hheld cell (List.mem_cons_of_mem _ (List.mem_flatMap.mpr
            ⟨c, by simp, hcell⟩))) fuel (by omega)
        rw [covering_append_right (fun r hr => (hbefore r hr).le)
          ⟨s, List.mem_append_left _ hsc, hle⟩ hsplit.append.2.1, covering_append_left hafter,
          ← hfind, h]
        simp only [hget, Option.bind_eq_bind, Option.bind_some, Option.pure_def, hnode]
      · rw [h, covering_eq_none]
        · rfl
        · intro r hr
          rw [List.flatMap_nil, List.nil_append, List.mem_append] at hr
          exact hr.elim (hc r) (hafter r)

theorem find_spec {T : RunTree LocalId (Slot K) n} (hid : T.id = t.root) (hroot : RootFull T)
    (hs : Ascending Slot.first T.flat) (hheld : Holds w.store (T.cells (sparseLayout V t))) (key : K) :
    Engine.Returns (fun fuel => t.find fuel key) w (covering T.flat key) w :=
  ⟨n, fun fuel hfuel => by
    change (t.findFrom key fuel t.root).runIn w = _
    rw [← hid]
    exact findFrom_eq key T hroot hs hheld fuel hfuel⟩

omit [LinearOrder K] in
theorem total_spec {T : RunTree LocalId (Slot K) n} (hid : T.id = t.root)
    (hheld : Holds w.store (T.cells (sparseLayout V t))) :
    (t.total K : Engine V Nat).runIn w = (.ok (T.flat.map Slot.count).sum, w) := by
  rw [SparseTree.total, ← hid, Engine.runIn_bind_ok (load_sparse hheld), ← total_sparseNode]
  rfl

end Descent

section Plans

variable {V K : Type} [LaneCodec V (SparseNode K)] [DecidableEq V] [LinearOrder K]
  {t : SparseTree} {kinds : List Nat} {n : Nat} {w : World V}

def IndexPlan (t : SparseTree) (kinds : List Nat) (w : World V) (old : List (Id × V))
    (p : Nat → Engine V (List (Write V))) (slots : List (Slot K)) : Prop :=
  ∃ (n : Nat) (T : RunTree LocalId (Slot K) n) (writes : List (Write V)) (w' : World V),
    Engine.Returns p w writes w' ∧ T.id = t.root ∧ T.flat = slots ∧ RootFull T ∧
    Planned t.tenant kinds w w' writes old (T.cells (sparseLayout V t))

omit [LinearOrder K] in
theorem edit_spec (hcap : 1 ≤ t.cap) (hu : Unused t.tenant kinds w)
    (hk : laneLower t.laneHash ∈ kinds) {id : LocalId} {slots : List (Slot K)}
    (slots' : List (Slot K))
    {q : RunTree.Path LocalId (Slot K) 0 n} (hid : (q.plug (.leaf id slots)).id = t.root)
    (hq : q.Full) (hshown : Shown q slots)
    (hheld : Holds w.store ((q.plug (.leaf id slots)).cells (sparseLayout V t)))
    (hnodup : (addrs ((q.plug (.leaf id slots)).cells (sparseLayout V t))).Nodup) :
    Reindexed t kinds w ((q.plug (.leaf id slots)).cells (sparseLayout V t))
      (q.pre ++ slots' ++ q.post)
      ((t.climb (sparseFrames q (id, slots)) id (.leaf slots') []).runIn w) := by
  have hcells := q.cells_plug (sparseLayout V t) (.leaf id slots)
  have hclimb : SparseClimb t kinds w w [] ((q.plug (.leaf id slots)).cells (sparseLayout V t)) q
      (.leaf id slots') (id, slots) :=
    ⟨(q.id_plug (.leaf id slots') (.leaf id slots) rfl).trans hid, rfl, hshown, hq, trivial, _,
      (Planned.refl hheld hnodup).perm hcells⟩
  exact climb_spec hcap hu hk q (.leaf id slots') (id, slots) w [] hclimb

theorem sparse_descend_root {T : RunTree LocalId (Slot K) n} (hid : T.id = t.root)
    (hroot : RootFull T) (hs : Ascending Slot.first T.flat)
    (hheld : Holds w.store (T.cells (sparseLayout V t))) (key : K) :
    ∃ (id : LocalId) (slots : List (Slot K)) (q : RunTree.Path LocalId (Slot K) 0 n),
      q.plug (.leaf id slots) = T ∧ q.Full ∧ Shown q slots ∧ Ascending Slot.first slots ∧
      below Slot.first key T.flat = q.pre ++ below Slot.first key slots ∧
      above Slot.first key T.flat = above Slot.first key slots ++ q.post ∧
      Engine.Returns (fun fuel => t.descend key fuel t.root []) w
        (sparseFrames q (id, slots), id, slots) w := by
  obtain ⟨id, slots, q, hq, hqf, hqs, hpre, hpost, hrun⟩ := sparse_descend_eq (t := t) key T .nil
    hroot hs trivial trivial (by simp [RunTree.Path.pre]) (by simp [RunTree.Path.post]) hheld
  have hplug : q.plug (.leaf id slots) = T := hq
  have hflat : T.flat = q.pre ++ slots ++ q.post := by rw [← hplug, q.flat_plug]; rfl
  refine ⟨id, slots, q, hplug, hqf, hqs, ?_, ?_, ?_, n, ?_⟩
  · rw [hflat] at hs
    exact hs.append.1.append.2.1
  · rw [hflat, (parts_middle hpre hpost slots).1]
  · rw [hflat, (parts_middle hpre hpost slots).2]
  · rw [← hid]
    exact hrun

theorem upsertSlot_eq {slots : List (Slot K)} (hs : Ascending Slot.first slots) (slot : Slot K) :
    SparseTree.upsertSlot slots slot =
      below Slot.first slot.first slots ++ slot :: above Slot.first slot.first slots := by
  obtain ⟨a, b, hbelow, habove, hcase⟩ := search_keyed hs slot.first
  rw [hbelow, habove, SparseTree.upsertSlot]
  rcases hcase with ⟨heq, hsearch⟩ | ⟨s, -, heq, hsearch⟩
  · simp only [hsearch]
    rw [heq]
    exact insertIdx_length_append a b slot
  · simp only [hsearch]
    rw [heq]
    simp

theorem planUpsert_spec (hcap : 1 ≤ t.cap) (hu : Unused t.tenant kinds w)
    (hk : laneLower t.laneHash ∈ kinds) {T : RunTree LocalId (Slot K) n} (hid : T.id = t.root)
    (hroot : RootFull T) (hs : Ascending Slot.first T.flat)
    (hheld : Holds w.store (T.cells (sparseLayout V t)))
    (hnodup : (addrs (T.cells (sparseLayout V t))).Nodup) (slot : Slot K) :
    IndexPlan t kinds w (T.cells (sparseLayout V t)) (fun fuel => t.planUpsert fuel slot)
      (below Slot.first slot.first T.flat ++ slot :: above Slot.first slot.first T.flat) := by
  obtain ⟨id, slots, q, rfl, hqf, hqs, hsorted, hbelow, habove, hrun⟩ :=
    sparse_descend_root hid hroot hs hheld slot.first
  obtain ⟨n', T', writes, w', hclimb, hid', hflat, hfull, hplan⟩ := edit_spec hcap hu hk
    (below Slot.first slot.first slots ++ slot :: above Slot.first slot.first slots) hid hqf hqs
    hheld hnodup
  refine ⟨n', T', writes, w', hrun.bind (.of_run ?_), hid', ?_, hfull, hplan⟩
  · simp only [upsertSlot_eq hsorted]
    exact hclimb
  · rw [hflat, hbelow, habove]
    simp

theorem planRemove_sparse_spec (hcap : 1 ≤ t.cap) (hu : Unused t.tenant kinds w)
    (hk : laneLower t.laneHash ∈ kinds) {T : RunTree LocalId (Slot K) n} (hid : T.id = t.root)
    (hroot : RootFull T) (hs : Ascending Slot.first T.flat)
    (hheld : Holds w.store (T.cells (sparseLayout V t)))
    (hnodup : (addrs (T.cells (sparseLayout V t))).Nodup) (first : K) :
    IndexPlan t kinds w (T.cells (sparseLayout V t)) (fun fuel => t.planRemove fuel first)
      (below Slot.first first T.flat ++ above Slot.first first T.flat) := by
  obtain ⟨id, slots, q, rfl, hqf, hqs, hsorted, hbelow, habove, hrun⟩ :=
    sparse_descend_root hid hroot hs hheld first
  obtain ⟨a, b, ha, hb, hcase⟩ := search_keyed hsorted first
  rw [hbelow, habove, ha, hb]
  rcases hcase with ⟨heq, hsearch⟩ | ⟨s, -, heq, hsearch⟩
  · refine ⟨n, _, [], w, hrun.bind (.of_run ?_), hid, ?_, hroot, .refl hheld hnodup⟩
    · simp only [hsearch]
      rfl
    · rw [q.flat_plug, RunTree.flat_leaf, heq]
      simp
  · obtain ⟨n', T', writes, w', hclimb, hid', hflat, hfull, hplan⟩ := edit_spec hcap hu hk
      (a ++ b) hid hqf hqs hheld hnodup
    have herase : slots.eraseIdx a.length = a ++ b := by
      rw [heq, List.eraseIdx_append_of_length_le le_rfl, Nat.sub_self]
      rfl
    refine ⟨n', T', writes, w', hrun.bind (.of_run ?_), hid', ?_, hfull, hplan⟩
    · simp only [hsearch, herase]
      exact hclimb
    · rw [hflat]
      simp

end Plans

end WaveDb.Index
