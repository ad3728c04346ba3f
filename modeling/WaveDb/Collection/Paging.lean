import WaveDb.Index.Chain.Shared
import WaveDb.Index.Sparse.Run
import WaveDb.Collection.Catalog

-- Declared lists read page by page, on the node and by the client.
namespace WaveDb.Collection

open WaveDb.Lib WaveDb.Core WaveDb.Index

structure ChainRoots where
  head : LocalId
  tail : LocalId
  index : LocalId
  deriving DecidableEq, Repr

-- The record with the roots of a collection, as far as its lists go.
structure Pivot where
  lists : List ChainRoots
  deriving DecidableEq, Repr

def rootsOf (c : Chain) : ChainRoots :=
  ⟨c.head, c.tail, c.index.elim ⟨0, 0⟩ SparseTree.root⟩

-- A handle of a collection. The hashes and the page sizes are its type's.
structure ListHandle where
  pivot : LocalId
  tenant : Nat
  pivotHash : Nat
  laneHash : Nat
  indexHash : Nat
  indexCap : Nat
  listPage : Nat → Nat

section Reads

variable {V F T : Type} [LaneCodec V Pivot] [LaneCodec V (Segment (SecKey F) (Stored T))]
  [LaneCodec V (SparseNode (SecKey F))]

namespace ListHandle

variable (col : ListHandle)

def recordChain (roots : ChainRoots) (min : Nat) : Chain :=
  ⟨roots.head, roots.tail, col.tenant, col.laneHash,
    some ⟨roots.index, col.tenant, col.indexHash, col.indexCap⟩, min⟩

def loadPivot : Engine V Pivot := do
  match ← Engine.getOf col.pivotHash (col.pivot.toId col.tenant) with
  | none => .fail (.pivotMissing col.pivot)
  | some bytes => Prog.ofExcept (LaneCodec.fromBytes col.pivotHash bytes)

def listChain (pivot : Pivot) (index : Nat) : Except Error Chain :=
  match pivot.lists[index]? with
  | some roots => .ok (col.recordChain roots (col.listPage index))
  | none => .error (.listOutOfRange index)

def listStart (F : Type) [LaneCodec V (SparseNode (SecKey F))] (c : Chain) (fuel : Nat)
    (offset : Option Nat) : Engine V (Option (LocalId × Nat)) :=
  match offset.filter (0 < ·), c.index with
  | some offset, some tree => do
      let found : Option (Slot (SecKey F) × Nat) ← tree.findOffset fuel offset
      return found.map fun r => (r.1.seg, r.2)
  | some _, none => return none
  | none, _ => return some (c.head, 0)

def walkFrom (c : Chain) : Nat → Option (LocalId × Nat) →
    Engine V (List (SecKey F × Stored T))
  | _, none => return []
  | 0, some _ => .stuck
  | fuel + 1, some (id, skip) => do
      let seg : Segment (SecKey F) (Stored T) ← c.load id
      let rest ← walkFrom c fuel (seg.next.map fun next => (next, 0))
      return seg.entries.drop skip ++ rest

def listedFrom (F T : Type) [LaneCodec V (Segment (SecKey F) (Stored T))]
    [LaneCodec V (SparseNode (SecKey F))] (fuel index : Nat) (offset : Option Nat) :
    Engine V (List (Id × Metadata × T)) := do
  let pivot ← col.loadPivot
  let c ← Prog.ofExcept (col.listChain pivot index)
  let start ← listStart F c fuel offset
  let entries : List (SecKey F × Stored T) ← walkFrom c fuel start
  return entries.map fun e => (e.1.anchor.toId col.tenant, e.2)

def listed (F T : Type) [LaneCodec V (Segment (SecKey F) (Stored T))]
    [LaneCodec V (SparseNode (SecKey F))] (fuel index : Nat) : Engine V (List (Id × T)) := do
  let page ← col.listedFrom F T fuel index none
  return page.map fun r => (r.1, r.2.2)

def listedMetaAt (F T : Type) [LaneCodec V (Segment (SecKey F) (Stored T))]
    [LaneCodec V (SparseNode (SecKey F))] (fuel index offset : Nat) :
    Engine V (List (Id × Metadata × T)) := col.listedFrom F T fuel index (some offset)

def listedAt (F T : Type) [LaneCodec V (Segment (SecKey F) (Stored T))]
    [LaneCodec V (SparseNode (SecKey F))] (fuel index offset : Nat) :
    Engine V (List (Id × T)) := do
  let page ← col.listedMetaAt F T fuel index offset
  return page.map fun r => (r.1, r.2.2)

def listLen (F : Type) [LaneCodec V (SparseNode (SecKey F))] (index : Nat) : Engine V Nat := do
  let pivot ← col.loadPivot
  let c ← Prog.ofExcept (col.listChain pivot index)
  match c.index with
  | some tree => tree.total (SecKey F)
  | none => return 0

def listedValues (F T : Type) [LaneCodec V (Segment (SecKey F) (Stored T))]
    [LaneCodec V (SparseNode (SecKey F))] (fuel index offset limit : Nat) :
    Engine V (List (Id × Metadata × T)) := do
  let page ← col.listedMetaAt F T fuel index offset
  return page.take limit

end ListHandle

def chunk : Nat := 256

-- The wire has the index as a 32-bit number.
def indexU32 (index : Nat) : Nat := min index (2 ^ 32 - 1)

namespace ListHandle

variable (col : ListHandle)

def fetch (F T : Type) [LaneCodec V (Segment (SecKey F) (Stored T))]
    [LaneCodec V (SparseNode (SecKey F))] (fuel index offset limit : Nat) :
    Engine V (List (Id × Metadata × T)) :=
  col.listedValues F T fuel (indexU32 index) offset limit

-- The next page is asked for while the last came back full.
def pages (F : Type) {T : Type} [LaneCodec V (Segment (SecKey F) (Stored T))]
    [LaneCodec V (SparseNode (SecKey F))] (walk index : Nat) :
    Nat → Nat → List (Id × Metadata × T) → Engine V (List T)
  | 0, _, _ => .stuck
  | fuel + 1, offset, page => do
      let served := page.length
      let rows := page.map fun r => r.2.2
      if served = chunk then
        let more ← col.fetch F T walk index (offset + served) chunk
        let rest ← pages F walk index fuel (offset + served) more
        return rows ++ rest
      else
        return rows

def cachedListed (F T : Type) [LaneCodec V (Segment (SecKey F) (Stored T))]
    [LaneCodec V (SparseNode (SecKey F))] (fuel index offset : Nat) : Engine V (List T) := do
  let first ← col.fetch F T fuel index offset chunk
  col.pages F fuel index fuel offset first

end ListHandle

end Reads

section Walk

variable {V F T : Type} [LaneCodec V (Segment (SecKey F) (Stored T))]
  [LaneCodec V (SparseNode (SecKey F))] [DecidableEq V] {c : Chain} {w : World V}

theorem walkFrom_spec (b : Segs (SecKey F) (Stored T)) (prev : Option LocalId)
    (s : LocalId × List (SecKey F × Stored T)) (skip : Nat)
    (h : Holds w.store (segCells V c.tenant c.laneHash prev (s :: b) none)) {fuel : Nat}
    (hfuel : b.length < fuel) :
    (ListHandle.walkFrom c fuel (some (s.1, skip)) : Engine V _).runIn w =
      (.ok (s.2.drop skip ++ entriesOf b), w) := by
  induction b generalizing prev s skip fuel with
  | nil =>
    obtain ⟨fuel, rfl⟩ : ∃ n, fuel = n + 1 := ⟨fuel - 1, by simp at hfuel; omega⟩
    have hload := chain_load_eq (c := c) (h _ List.mem_cons_self)
    rw [ListHandle.walkFrom, Engine.runIn_bind_ok hload]
    cases fuel <;> rfl
  | cons next b ih =>
    obtain ⟨fuel, rfl⟩ : ∃ n, fuel = n + 1 := ⟨fuel - 1, by simp at hfuel; omega⟩
    have hload := chain_load_eq (c := c) (h _ List.mem_cons_self)
    have hrest := ih (some s.1) next 0 (fun cell hcell => h cell (List.mem_cons_of_mem _ hcell))
      (by simpa using hfuel : b.length < fuel)
    rw [ListHandle.walkFrom, Engine.runIn_bind_ok hload]
    refine (Engine.runIn_bind_ok hrest).trans ?_
    rw [List.drop_zero, ← entriesOf_cons]
    rfl

theorem positions_slotsOf (segs : Segs (SecKey F) (Stored T)) (offset : Nat) :
    ((positions (slotsOf segs))[offset]? = none ∧ (entriesOf segs).drop offset = []) ∨
    ∃ a s b slot skip, segs = a ++ s :: b ∧ slot.seg = s.1 ∧
      (positions (slotsOf segs))[offset]? = some (slot, skip) ∧
      (entriesOf segs).drop offset = s.2.drop skip ++ entriesOf b := by
  induction segs generalizing offset with
  | nil => exact .inl ⟨rfl, by simp [entriesOf]⟩
  | cons s segs ih =>
    obtain ⟨id, entries⟩ := s
    have hpos : (positions (slotOf (id, entries)).toList).length = entries.length := by
      cases entries <;> simp [slotOf, length_positions]
    rw [slotsOf_cons, positions_append, entriesOf_cons]
    by_cases hin : offset < entries.length
    · -- the segment has it
      obtain ⟨e, rest, rfl⟩ : ∃ e rest, entries = e :: rest :=
        List.exists_cons_of_ne_nil (by rintro rfl; simp at hin)
      refine .inr ⟨[], _, segs, ⟨e.1, id, (e :: rest).length⟩, offset, rfl, rfl, ?_, ?_⟩
      · rw [List.getElem?_append_left (by omega)]
        have honly : positions (slotOf (id, e :: rest)).toList =
            (List.range (e :: rest).length).map
              (Prod.mk (⟨e.1, id, (e :: rest).length⟩ : Slot (SecKey F))) := by
          simp [slotOf, positions]
        rw [honly, List.getElem?_map, List.getElem?_range hin]
        rfl
      · rw [List.drop_append_of_le_length hin.le]
    · have hge := Nat.not_lt.mp hin
      rw [List.getElem?_append_right (by omega), hpos, List.drop_append,
        List.drop_eq_nil_of_le hge, List.nil_append]
      rcases ih (offset - entries.length) with hnone | ⟨a, s, b, slot, skip, rfl, hslot, hsome, hdrop⟩
      · exact .inl hnone
      · exact .inr ⟨_ :: a, s, b, slot, skip, rfl, hslot, hsome, hdrop⟩

end Walk

section Shown

variable {V F T : Type} [LaneCodec V Pivot] [LaneCodec V (Segment (SecKey F) (Stored T))]
  [LaneCodec V (SparseNode (SecKey F))]

def ListHandle.PivotAt (col : ListHandle) (s : Store V) (pivot : Pivot) : Prop :=
  s (col.pivot.toId col.tenant) = some (LaneCodec.toBytes col.pivotHash pivot)

variable [LinearOrder F]

structure ListHandle.Shows (col : ListHandle) (index : Nat) (s : Store V) (c : Chain)
    (segs : Segs (SecKey F) (Stored T)) (ix : List (Id × V)) : Prop where
  pivot : ∃ pivot, col.PivotAt s pivot ∧ col.listChain pivot index = .ok c
  shape : ChainShape c segs
  indexed : Indexed c.index (slotsOf segs) ix
  held : Holds s (segCells V c.tenant c.laneHash none segs none ++ ix)

def ListHandle.rows (col : ListHandle) (segs : Segs (SecKey F) (Stored T)) :
    List (Id × Metadata × T) :=
  (entriesOf segs).map fun e => (e.1.anchor.toId col.tenant, e.2)

variable [DecidableEq V] {col : ListHandle} {index : Nat} {w : World V} {c : Chain}
  {segs : Segs (SecKey F) (Stored T)} {ix : List (Id × V)}

theorem loadPivot_eq {pivot : Pivot} (h : col.PivotAt w.store pivot) :
    (col.loadPivot : Engine V Pivot).runIn w = (.ok pivot, w) := by
  rw [ListHandle.loadPivot, Engine.runIn_bind_ok (Engine.runIn_getOf _ _ _), h]
  simp only [LaneCodec.fromBytes_toBytes]
  rfl

namespace ListHandle.Shows

variable (h : col.Shows index w.store c segs ix)

include h

theorem opens {α : Type} (f : Chain → Engine V α) :
    (do let pivot ← col.loadPivot
        let c ← Prog.ofExcept (col.listChain pivot index)
        f c : Engine V α).runIn w = (f c).runIn w := by
  obtain ⟨pivot, hat, hc⟩ := h.pivot
  rw [Engine.runIn_bind_ok (loadPivot_eq hat), hc]
  rfl

theorem walk_head : Engine.Returns
    (fun fuel => (ListHandle.walkFrom c fuel (some (c.head, 0)) : Engine V _)) w
      (entriesOf segs) w := by
  have hhead := h.shape.head
  cases segs with
  | nil => cases hhead
  | cons s segs =>
    refine .intro segs.length fun fuel hfuel => ?_
    rw [← Option.some.inj hhead, walkFrom_spec segs none s 0 (holds_append.mp h.held).1 hfuel]
    rfl

omit [DecidableEq V] in
theorem exists_index : ∃ (t : SparseTree) (n : Nat) (R : RunTree LocalId (Slot (SecKey F)) n),
    c.index = some t ∧ R.id = t.root ∧ R.flat = slotsOf segs ∧ R.KidsFull ∧
      ix = R.cells (sparseLayout V t) := by
  obtain ⟨pivot, -, hc⟩ := h.pivot
  have hix := h.indexed
  rw [ListHandle.listChain] at hc
  cases hroots : pivot.lists[index]? with
  | none => simp [hroots] at hc
  | some roots =>
    rw [hroots] at hc
    cases hc
    obtain ⟨n, R, hid, hflat, hroot, hcells⟩ := hix
    exact ⟨_, n, R, rfl, hid, hflat, hroot.1, hcells⟩

theorem starts (offset : Nat) : ∃ start,
    Engine.Returns (fun fuel => ListHandle.listStart F c fuel (some offset)) w start w ∧
    Engine.Returns (fun fuel => (ListHandle.walkFrom c fuel start : Engine V _)) w
      ((entriesOf segs).drop offset) w := by
  cases offset with
  | zero => exact ⟨some (c.head, 0), ⟨0, fun _ _ => rfl⟩, h.walk_head⟩
  | succ offset =>
    obtain ⟨t, n, R, hindex, hid, hflat, hfull, rfl⟩ := h.exists_index
    have hfind := findOffset_spec hid hfull (holds_append.mp h.held).2 (offset + 1)
    rw [hflat] at hfind
    have hstart : Engine.Returns (fun fuel => ListHandle.listStart F c fuel (some (offset + 1))) w
        (((positions (slotsOf segs))[offset + 1]?).map fun r => (r.1.seg, r.2)) w := by
      simp only [ListHandle.listStart, hindex]
      exact hfind.bind ⟨0, fun _ _ => rfl⟩
    refine ⟨_, hstart, ?_⟩
    rcases positions_slotsOf segs (offset + 1) with
      ⟨hnone, hdrop⟩ | ⟨a, s, b, slot, skip, rfl, hslot, hsome, hdrop⟩
    · rw [hnone, hdrop]
      exact ⟨0, fun fuel _ => by cases fuel <;> rfl⟩
    · rw [hsome, hdrop, Option.map_some, hslot]
      have hcells := (holds_append.mp h.held).1
      rw [segCells_append] at hcells
      exact .intro b.length fun fuel hfuel =>
        walkFrom_spec b _ s skip (holds_append.mp hcells).2 hfuel

theorem listed_from (offset : Option Nat) : Engine.Returns
    (fun fuel => col.listedFrom F T fuel index offset) w
      ((col.rows segs).drop (offset.getD 0)) w := by
  obtain ⟨start, hstart, hwalk⟩ : ∃ start,
      Engine.Returns (fun fuel => ListHandle.listStart F c fuel offset) w start w ∧
      Engine.Returns (fun fuel => (ListHandle.walkFrom c fuel start : Engine V _)) w
        ((entriesOf segs).drop (offset.getD 0)) w := by
    cases offset with
    | none => exact ⟨some (c.head, 0), ⟨0, fun _ _ => rfl⟩, h.walk_head⟩
    | some offset => exact h.starts offset
  obtain ⟨bound, hread⟩ := hstart.bind (f := fun fuel start => do
      let entries : List (SecKey F × Stored T) ← ListHandle.walkFrom c fuel start
      return entries.map fun e => (e.1.anchor.toId col.tenant, e.2))
    (hwalk.bind ⟨0, fun _ _ => rfl⟩)
  refine ⟨bound, fun fuel hfuel => ?_⟩
  refine ((h.opens _).trans (hread fuel hfuel)).trans ?_
  rw [ListHandle.rows, List.map_drop]

theorem list_len : (col.listLen F index : Engine V Nat).runIn w =
    (.ok (col.rows segs).length, w) := by
  obtain ⟨t, n, R, hindex, hid, hflat, -, rfl⟩ := h.exists_index
  rw [ListHandle.listLen, h.opens, hindex]
  simp only
  rw [total_spec hid (holds_append.mp h.held).2, hflat, sum_slotsOf, ListHandle.rows,
    List.length_map]

theorem fetched (hindex : index < 2 ^ 32) (offset limit : Nat) : Engine.Returns
    (fun fuel => col.fetch F T fuel index offset limit) w
      (((col.rows segs).drop offset).take limit) w := by
  have hnarrow : indexU32 index = index := by
    rw [indexU32]
    omega
  simp only [ListHandle.fetch, ListHandle.listedValues, hnarrow]
  exact (h.listed_from (some offset)).bind ⟨0, fun _ _ => rfl⟩

-- Induction on what is left behind the offset. A short page is all of it.
theorem paged (hindex : index < 2 ^ 32) (offset : Nat) : ∃ bound, ∀ walk fuel, bound < walk →
    bound < fuel →
    (col.pages F walk index fuel offset (((col.rows segs).drop offset).take chunk)).runIn w =
      (.ok (((col.rows segs).drop offset).map fun r => r.2.2), w) := by
  induction hleft : (col.rows segs).length - offset using Nat.strong_induction_on
    generalizing offset with
  | _ left ih =>
    by_cases hfull : (((col.rows segs).drop offset).take chunk).length = chunk
    · have hlen : chunk ≤ (col.rows segs).length - offset := by
        rw [List.length_take, List.length_drop] at hfull
        omega
      have hpos : 0 < chunk := by decide
      obtain ⟨m, hfetch⟩ := h.fetched hindex (offset + chunk) chunk
      obtain ⟨n, hrest⟩ := ih _ (by omega) (offset + chunk) rfl
      refine ⟨max m n + 1, fun walk fuel hwalk hfuel => ?_⟩
      obtain ⟨fuel, rfl⟩ : ∃ k, fuel = k + 1 := ⟨fuel - 1, by omega⟩
      simp only [ListHandle.pages, hfull, if_true]
      refine (Engine.runIn_bind_ok (hfetch walk (by omega))).trans ?_
      refine (Engine.runIn_bind_ok (hrest walk fuel (by omega) (by omega))).trans ?_
      rw [Engine.runIn_pure, ← List.drop_drop, ← List.map_append, List.take_append_drop]
    · have hshort : ((col.rows segs).drop offset).length ≤ chunk := by
        rw [List.length_take] at hfull
        omega
      refine ⟨0, fun walk fuel _ hfuel => ?_⟩
      obtain ⟨fuel, rfl⟩ : ∃ k, fuel = k + 1 := ⟨fuel - 1, by omega⟩
      simp only [ListHandle.pages, if_neg hfull]
      rw [List.take_of_length_le hshort]
      rfl

theorem cached_listed (hindex : index < 2 ^ 32) (offset : Nat) : Engine.Returns
    (fun fuel => col.cachedListed F T fuel index offset) w
      (((col.rows segs).drop offset).map fun r => r.2.2) w := by
  obtain ⟨bound, hpages⟩ := h.paged hindex offset
  exact (h.fetched hindex offset chunk).bind ⟨bound, fun fuel hfuel => hpages fuel fuel hfuel hfuel⟩

end ListHandle.Shows

end Shown

section Runs

variable {V F T : Type} [LaneCodec V Pivot] [LaneCodec V (Segment (SecKey F) (Stored T))]
  [LaneCodec V (SparseNode (SecKey F))] [DecidableEq V] [LinearOrder F]

def ListHandle.kinds (col : ListHandle) : List Nat :=
  chainKinds col.laneHash (some (col.indexHash, col.indexCap))

-- The runs of one declared list of a collection. Each operation plans on the chain its
-- pivot names, on a view where other structures may have staged theirs, and commits all
-- in one batch. `ids` are the ids of the list and `M` is what the plans should make of
-- it.
inductive ListRun (V : Type) {F T : Type} [LaneCodec V Pivot]
    [LaneCodec V (Segment (SecKey F) (Stored T))] [LaneCodec V (SparseNode (SecKey F))]
    [DecidableEq V] [LinearOrder F] (col : ListHandle) (index : Nat) :
    Store V → Set Id → (SecKey F → Option (Stored T)) → Prop
  | create {w w' : World V} {c : Chain} {min : Nat} {writes : List (Write V)} {s : Store V}
      {pivot : Pivot} (hfresh : Unused col.tenant col.kinds w)
      (hplan : (Chain.planCreate col.tenant col.laneHash col.indexHash min col.indexCap
        (SecKey F) (Stored T)).runIn w = (.ok (c, writes), w'))
      (hs : ∀ i ∈ idsAfter w.store writes ∅, s i = w.store.writes writes i)
      (hpivot : col.PivotAt s pivot) (hroots : pivot.lists[index]? = some (rootsOf c)) :
      ListRun V col index s (idsAfter w.store writes ∅) fun _ => none
  | commit {s s' : Store V} {ids : Set Id} {M : SecKey F → Option (Stored T)} {pivot pivot' : Pivot}
      {c : Chain} {w : World V} {b : Draft V (SecKey F) (Stored T)}
      (h : ListRun V col index s ids M) (hpivot : col.PivotAt s pivot)
      (hchain : col.listChain pivot index = .ok c) (hview : ∀ i ∈ ids, w.store i = s i)
      (hfresh : Unused col.tenant col.kinds w) (hplans : Plans ⟨c, w, ids, M⟩ b)
      (hs : ∀ i ∈ b.ids, s' i = b.world.store i) (hpivot' : col.PivotAt s' pivot')
      (hroots : pivot'.lists[index]? = some (rootsOf b.chain)) :
      ListRun V col index s' b.ids b.content

variable {col : ListHandle} {index : Nat} {s s' : Store V} {ids : Set Id}
  {M : SecKey F → Option (Stored T)} {c c' : Chain}

def ListHandle.Opens (col : ListHandle) (index : Nat) (c : Chain) : Prop :=
  c = col.recordChain (rootsOf c) (col.listPage index)

theorem opens_of_listChain {pivot : Pivot} (h : col.listChain pivot index = .ok c) :
    col.Opens index c := by
  rw [ListHandle.listChain] at h
  cases hroots : pivot.lists[index]? with
  | none => simp [hroots] at h
  | some roots =>
    rw [hroots] at h
    cases h
    rfl

theorem listChain_of_roots {pivot : Pivot} (h : col.Opens index c)
    (hroots : pivot.lists[index]? = some (rootsOf c)) : col.listChain pivot index = .ok c := by
  rw [ListHandle.listChain, hroots]
  exact congrArg Except.ok h.symm

theorem ListHandle.Opens.moved (h : col.Opens index c)
    (hsame : c' = { c with head := c'.head, tail := c'.tail }) : col.Opens index c' := by
  rw [hsame, ListHandle.Opens]
  rw [ListHandle.Opens] at h
  rw [h]
  rfl

theorem ListHandle.Opens.ok (h : col.Opens index c) (hpage : 1 ≤ col.listPage index)
    (hcap : 1 ≤ col.indexCap) : ChainOk col.kinds c := by
  rw [ListHandle.Opens] at h
  rw [h]
  refine ⟨hpage, List.mem_cons_self, fun t ht => ?_⟩
  cases ht
  exact ⟨rfl, hcap, by simp [ListHandle.kinds, chainKinds, ListHandle.recordChain]⟩

omit [LaneCodec V (Segment (SecKey F) (Stored T))] [LaneCodec V (SparseNode (SecKey F))]
  [DecidableEq V] [LinearOrder F] in
theorem ListHandle.PivotAt.unique {pivot pivot' : Pivot} (h : col.PivotAt s pivot)
    (h' : col.PivotAt s pivot') : pivot = pivot' := by
  have hbytes := Option.some.inj (h.symm.trans h')
  have hdecode := congrArg (LaneCodec.fromBytes (X := Pivot) col.pivotHash) hbytes
  rw [LaneCodec.fromBytes_toBytes, LaneCodec.fromBytes_toBytes] at hdecode
  exact Except.ok.inj hdecode

theorem opens_created {min : Nat}
    (h : c.Has col.tenant col.laneHash min (some (col.indexHash, col.indexCap))) :
    col.Opens index { c with min := col.listPage index } := by
  obtain ⟨head, tail, tenant, laneHash, tree, min⟩ := c
  obtain ⟨rfl, rfl, -, hindex, htenant⟩ := h
  cases tree with
  | none => cases hindex
  | some t =>
    obtain ⟨root, tenant, laneHash, cap⟩ := t
    have ht : tenant = col.tenant := htenant _ rfl
    simp only [Option.map_some, Option.some.injEq, Prod.mk.injEq] at hindex
    obtain ⟨hhash, hcap⟩ := hindex
    simp only [ListHandle.Opens, ListHandle.recordChain, rootsOf, Option.elim, ht, hhash, hcap]

theorem ListRun.shows (hpage : 1 ≤ col.listPage index) (hcap : 1 ≤ col.indexCap)
    (h : ListRun V col index s ids M) :
    ∃ c segs ix, col.Shows index s c segs ix ∧
      (addrs (segCells V c.tenant c.laneHash none segs none ++ ix)).Nodup ∧
      (∀ i, i ∈ ids ↔ i ∈ addrs (segCells V c.tenant c.laneHash none segs none ++ ix)) ∧
      ∀ k p, (k, p) ∈ entriesOf segs ↔ M k = some p := by
  induction h with
  | @create w w' c min writes s pivot hfresh hplan hs hpivot hroots =>
    obtain ⟨c', writes', w'', ix, hrun, hhas, htail, hix, hplanned⟩ :=
      createChain_spec (K := SecKey F) (P := Stored T) min hfresh (List.Subset.refl _)
    cases hplan.symm.trans hrun
    have howns := idsAfter_empty hplanned
    refine ⟨{ c with min := col.listPage index }, [(c.head, [])], ix, ⟨⟨pivot, hpivot, ?_⟩,
      ⟨rfl, ?_, ?_, by simp, ?_⟩, hix, ?_⟩, ?_, ?_, by simp [entriesOf]⟩
    · exact listChain_of_roots (opens_created hhas) hroots
    · rw [htail]
      rfl
    · simp [entriesOf, Ascending]
    · simp
      omega
    · rw [hhas.tenant_eq, hhas.laneHash_eq]
      exact fun cell hcell => (hs cell.1 ((howns cell.1).mpr (mem_addrs hcell))).trans
        (hplanned.replaces.holds cell hcell)
    · rw [hhas.tenant_eq, hhas.laneHash_eq]
      exact hplanned.nodup
    · rw [hhas.tenant_eq, hhas.laneHash_eq]
      exact howns
  | @commit s s' ids M pivot pivot' c w b h hpivot hchain hview hfresh hplans hs hpivot' hroots ih =>
    obtain ⟨c₁, segs, ix, hshows, hnodup, howns, hentries⟩ := ih
    obtain ⟨pivot₁, hpivot₁, hchain₁⟩ := hshows.pivot
    rw [hpivot₁.unique hpivot, hchain] at hchain₁
    cases hchain₁
    have hopens := opens_of_listChain hchain
    have htenant : c.tenant = col.tenant := by rw [hopens]; rfl
    have hheld : Holds w.store (segCells V c.tenant c.laneHash none segs none ++ ix) :=
      fun cell hcell => (hview cell.1 ((howns cell.1).mpr (mem_addrs hcell))).trans
        (hshows.held cell hcell)
    have hdraft : (⟨c, w, ids, M⟩ : Draft V (SecKey F) (Stored T)).Stands col.kinds segs ix :=
      ⟨⟨hopens.ok hpage hcap, hshows.shape, hshows.indexed, hheld, hnodup⟩, howns, hentries,
        by rwa [htenant]⟩
    obtain ⟨hmoved, segs', ix', hstands⟩ := hplans.stands hdraft
    refine ⟨b.chain, segs', ix', ⟨⟨pivot', hpivot', ?_⟩, hstands.shape, hstands.indexed, ?_⟩,
      hstands.nodup, hstands.owns, hstands.entries⟩
    · exact listChain_of_roots (hopens.moved hmoved) hroots
    · exact fun cell hcell => (hs cell.1 ((hstands.owns cell.1).mpr (mem_addrs hcell))).trans
        (hstands.held cell hcell)

-- Paging is exact in every state of every run: an offset drops that many records, and
-- the chunked reader comes to the end.
theorem paging_exact (hpage : 1 ≤ col.listPage index) (hcap : 1 ≤ col.indexCap)
    (hindex : index < 2 ^ 32) (h : ListRun V col index s ids M) :
    ∃ entries : List (SecKey F × Stored T), Ascending Prod.fst entries ∧
      (∀ k p, (k, p) ∈ entries ↔ M k = some p) ∧
      ∃ all : List (Id × T), all = entries.map (fun e => (e.1.anchor.toId col.tenant, e.2.2)) ∧
        ∀ w : World V, w.store = s →
          Engine.Returns (fun fuel => col.listed F T fuel index) w all w ∧
          (∀ offset, Engine.Returns (fun fuel => col.listedAt F T fuel index offset) w
            (all.drop offset) w) ∧
          (col.listLen F index : Engine V Nat).runIn w = (.ok all.length, w) ∧
          ∀ offset, Engine.Returns (fun fuel => col.cachedListed F T fuel index offset) w
            ((all.drop offset).map Prod.snd) w := by
  obtain ⟨c, segs, ix, hshows, -, -, hentries⟩ := h.shows hpage hcap
  refine ⟨entriesOf segs, hshows.shape.sorted, hentries, _, rfl, ?_⟩
  rintro w rfl
  have hall : (entriesOf segs).map (fun e => (e.1.anchor.toId col.tenant, e.2.2)) =
      (col.rows segs).map fun r => (r.1, r.2.2) := by
    rw [ListHandle.rows, List.map_map]
    rfl
  rw [hall]
  refine ⟨?_, fun offset => ?_, ?_, fun offset => ?_⟩
  · exact (hshows.listed_from none).bind ⟨0, fun _ _ => rfl⟩
  · rw [← List.map_drop]
    exact (hshows.listed_from (some offset)).bind ⟨0, fun _ _ => rfl⟩
  · rw [List.length_map]
    exact hshows.list_len
  · rw [← List.map_drop, List.map_map]
    exact hshows.cached_listed hindex offset

theorem ListRun.exists_insert (hpage : 1 ≤ col.listPage index) (hcap : 1 ≤ col.indexCap)
    {w : World V} (h : ListRun V col index w.store ids M) (hu : Unused col.tenant col.kinds w)
    (hout : col.pivot.toId col.tenant ∉ ids) (k : SecKey F) (p : Stored T) :
    ∃ s' ids', ListRun V col index s' ids' (Function.update M k (some p)) := by
  obtain ⟨c, segs, ix, hshows, hnodup, howns, hentries⟩ := h.shows hpage hcap
  obtain ⟨pivot, hpivot, hchain⟩ := hshows.pivot
  have hopens := opens_of_listChain hchain
  have htenant : c.tenant = col.tenant := by rw [hopens]; rfl
  have hat : ChainAt col.kinds c w segs ix :=
    ⟨hopens.ok hpage hcap, hshows.shape, hshows.indexed, hshows.held, hnodup⟩
  obtain ⟨c', segs', writes, w', hret, hre, -⟩ := planInsert_chain_spec (by rwa [htenant]) hat k p
  obtain ⟨ix', -, hplan⟩ := hre.planned
  have hlt : index < pivot.lists.length := by
    by_contra hge
    rw [ListHandle.listChain, List.getElem?_eq_none (by omega)] at hchain
    cases hchain
  let b := (⟨c, w, ids, M⟩ : Draft V (SecKey F) (Stored T)).stage c' w' writes
    (Function.update M k (some p))
  have hfree : ∀ i ∈ b.ids, i ≠ col.pivot.toId col.tenant := by
    rintro i hi rfl
    rcases hplan.fresh _ ((idsAfter_planned hplan howns _).mp hi) with hold | hgiven
    · exact hout ((howns _).mpr hold)
    · cases hpivot.symm.trans hgiven.1
  refine ⟨Function.update b.world.store (col.pivot.toId col.tenant)
    (some (LaneCodec.toBytes col.pivotHash (⟨pivot.lists.set index (rootsOf c')⟩ : Pivot))), b.ids,
    .commit h hpivot hchain (fun _ _ => rfl) hu (.insert k p .start hret)
      (fun i hi => Function.update_of_ne (hfree i hi) _ _) (Function.update_self _ _ _) ?_⟩
  exact List.getElem?_set_self hlt

end Runs

instance laneCodecPivot {V : Type} : LaneCodec (Pivot ⊕ V) Pivot where
  toBytes _ pivot := .inl pivot
  fromBytes _ v := v.elim .ok fun _ => .error .wire
  fromBytes_toBytes _ _ := rfl

instance laneCodecBeside {V X : Type} [LaneCodec V X] : LaneCodec (Pivot ⊕ V) X where
  toBytes hash x := .inr (LaneCodec.toBytes hash x)
  fromBytes hash v := v.elim (fun _ => .error .wire) (LaneCodec.fromBytes hash)
  fromBytes_toBytes hash x := LaneCodec.fromBytes_toBytes hash x

abbrev ListCell := Pivot ⊕ (Segment (SecKey Nat) (Stored Nat) ⊕ SparseNode (SecKey Nat))

def sampleHandle : ListHandle := ⟨⟨0, 5⟩, 7, 10, 1, 2, 4, fun _ => 3⟩

def sampleWorld : World ListCell := ⟨fun _ => none, fun n => n + 1, 0⟩

theorem sample_created : ∃ (w : World ListCell) (ids : Set Id),
    ListRun (F := Nat) (T := Nat) ListCell sampleHandle 0 w.store ids (fun _ => none) ∧
      Unused sampleHandle.tenant sampleHandle.kinds w ∧
      sampleHandle.pivot.toId sampleHandle.tenant ∉ ids := by
  have hu : Unused 7 sampleHandle.kinds sampleWorld :=
    ⟨fun a b h => by simpa [sampleWorld] using h, fun _ _ _ => rfl⟩
  obtain ⟨c, writes, w', ix, hrun, -, -, -, hplan⟩ := createChain_spec (V := ListCell)
    (K := SecKey Nat) (P := Stored Nat) 3 hu (List.Subset.refl _)
  have hkept : ∀ i ∈ idsAfter sampleWorld.store writes ∅,
      i ≠ sampleHandle.pivot.toId sampleHandle.tenant := by
    rintro i hi rfl
    rcases hplan.fresh _ ((idsAfter_empty hplan _).mp hi) with hold | hgiven
    · cases hold
    · obtain ⟨n, lower, -, he⟩ := hgiven.future
      cases congrArg Id.key he
  let s : Store ListCell := Function.update (sampleWorld.store.writes writes)
    (sampleHandle.pivot.toId sampleHandle.tenant)
    (some (LaneCodec.toBytes 10 (⟨[rootsOf c]⟩ : Pivot)))
  have hpivot : sampleHandle.PivotAt s ⟨[rootsOf c]⟩ := Function.update_self _ _ _
  refine ⟨{ w' with store := s }, _,
    .create hu hrun (fun i hi => Function.update_of_ne (hkept i hi) _ _) hpivot rfl, ?_,
    fun hi => hkept _ hi rfl⟩
  obtain ⟨hinj, hnone⟩ := hplan.unused hu
  refine ⟨hinj, fun n lower hl => ?_⟩
  obtain ⟨k, rfl⟩ := hplan.advanced
  have hne : (⟨(sampleWorld.advance k).clock n, 7, lower⟩ : Id) ≠
      sampleHandle.pivot.toId sampleHandle.tenant := fun he => by cases congrArg Id.key he
  have hkeeps : s ⟨(sampleWorld.advance k).clock n, 7, lower⟩ = _ := Function.update_of_ne hne _ _
  exact hkeeps.trans (hnone n lower hl)

theorem paging_exact_sample : ∃ (w : World ListCell) (all : List (Id × Nat)),
    all = [((⟨8, 6⟩ : LocalId).toId 7, 40)] ∧
    Engine.Returns (fun fuel => sampleHandle.listed Nat Nat fuel 0) w all w ∧
    Engine.Returns (fun fuel => sampleHandle.cachedListed Nat Nat fuel 0 0) w [40] w := by
  obtain ⟨w, ids, hrun, hu, hout⟩ := sample_created
  obtain ⟨s, ids', hinsert⟩ := hrun.exists_insert (by decide) (by decide) hu hout ⟨3, ⟨8, 6⟩⟩
    ({}, 40)
  obtain ⟨entries, hsorted, hentries, all, rfl, hreads⟩ :=
    paging_exact (by decide) (by decide) (by decide) hinsert
  have hmem : ∀ e, e ∈ entries ↔ e ∈ [((⟨3, ⟨8, 6⟩⟩, ({}, 40)) : SecKey Nat × Stored Nat)] := by
    rintro ⟨k, p⟩
    rw [hentries, Function.update_apply, List.mem_singleton, Prod.mk.injEq]
    split
    · rename_i hk
      simp [hk, eq_comm]
    · rename_i hk
      simp [hk]
  have hnodup : entries.Nodup := hsorted.imp fun hlt heq => absurd (heq ▸ hlt) (lt_irrefl _)
  have hone : entries = [(⟨3, ⟨8, 6⟩⟩, ({}, 40))] := List.perm_singleton.mp
    ((List.perm_ext_iff_of_nodup hnodup (List.nodup_singleton _)).mpr hmem)
  subst hone
  obtain ⟨hlisted, -, -, hcached⟩ := hreads ⟨s, fun n => n, 0⟩ rfl
  exact ⟨_, _, rfl, hlisted, hcached 0⟩

end WaveDb.Collection
