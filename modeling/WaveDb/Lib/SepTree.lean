import WaveDb.Lib.Cells
import Mathlib

-- Search trees with separators between the children and all leaves at one depth. Every
-- node has an identity in `κ`.
namespace WaveDb.Lib

theorem exists_cut {X : Type} (xs : List X) (m : Nat) (hm : m < xs.length) :
    ∃ a e b, xs = a ++ e :: b ∧ a.length = m :=
  ⟨xs.take m, xs[m], xs.drop (m + 1), by simp, by simp; omega⟩

theorem insertIdx_length_append {X : Type} (a b : List X) (x : X) :
    (a ++ b).insertIdx a.length x = a ++ x :: b := by
  induction a with
  | nil => rfl
  | cons y a ih => simp [ih]

section Join

variable {X Y K : Type}

-- The children seen from one of them, with the separators between.
def join : List (X × K) → X → List (K × X) → X × List (K × X)
  | [], x, after => (x, after)
  | (c, s) :: before, x, after => (c, (s, (join before x after).1) :: (join before x after).2)

@[simp] theorem join_nil (x : X) (after : List (K × X)) : join [] x after = (x, after) := rfl

theorem length_join (before : List (X × K)) (x : X) (after : List (K × X)) :
    (join before x after).2.length = before.length + after.length := by
  induction before with
  | nil => simp
  | cons e before ih => simp only [join, List.length_cons, ih]; omega

theorem map_join (f : X → Y) (before : List (X × K)) (x : X) (after : List (K × X)) :
    join (before.map (Prod.map f id)) (f x) (after.map (Prod.map id f)) =
      (f (join before x after).1, (join before x after).2.map (Prod.map id f)) := by
  induction before with
  | nil => rfl
  | cons e before ih => simp [join, ih]

theorem join_snoc (before : List (X × K)) (l : X) (s : K) (x : X) (after : List (K × X)) :
    join (before ++ [(l, s)]) x after = join before l ((s, x) :: after) := by
  induction before with
  | nil => rfl
  | cons e before ih => simp [join, ih]

theorem join_fst_cons (before : List (X × K)) (x : X) (a b : List (K × X)) :
    (join before x a).1 = (join before x b).1 := by
  cases before <;> rfl

theorem insertIdx_join (before : List (X × K)) (x : X) (e : K × X) (after : List (K × X)) :
    (join before x after).2.insertIdx before.length e = (join before x (e :: after)).2 := by
  induction before with
  | nil => rfl
  | cons c before ih => simp [join, ih, join_fst_cons before x after (e :: after)]

theorem eraseIdx_join (before : List (X × K)) (x : X) (e : K × X) (after : List (K × X)) :
    (join before x (e :: after)).2.eraseIdx before.length = (join before x after).2 := by
  induction before with
  | nil => rfl
  | cons c before ih => simp [join, ih, join_fst_cons before x after (e :: after)]

theorem modify_join (before : List (X × K)) (x : X) (e : K × X) (after : List (K × X))
    (f : K × X → K × X) :
    (join before x (e :: after)).2.modify before.length f = (join before x (f e :: after)).2 := by
  induction before with
  | nil => rfl
  | cons c before ih =>
    simp [join, ih, join_fst_cons before x (e :: after) (f e :: after)]

theorem getElem?_join (before : List (X × K)) (x : X) (e : K × X) (after : List (K × X)) :
    (join before x (e :: after)).2[before.length]? = some e := by
  induction before with
  | nil => rfl
  | cons c before ih => simpa [join] using ih

theorem map_fst_join {X : Type} (before : List (X × K)) (x : X) (after : List (K × X)) :
    (join before x after).2.map Prod.fst = before.map Prod.snd ++ after.map Prod.fst := by
  induction before with
  | nil => rfl
  | cons e before ih => simp [join, ih]

end Join

-- The items of a tree in order. A separator stands before an equal key.
abbrev Item (K : Type) := K ×ₗ Bool

def sepItem {K : Type} (s : K) : Item K := toLex (s, false)

def keyItem {K : Type} (k : K) : Item K := toLex (k, true)

section Items

variable {K : Type} [LinearOrder K]

@[simp] theorem keyItem_lt_keyItem {k l : K} : keyItem k < keyItem l ↔ k < l := by
  simp [keyItem, Prod.Lex.toLex_lt_toLex]

@[simp] theorem sepItem_lt_sepItem {k l : K} : sepItem k < sepItem l ↔ k < l := by
  simp [sepItem, Prod.Lex.toLex_lt_toLex]

@[simp] theorem keyItem_lt_sepItem {k l : K} : keyItem k < sepItem l ↔ k < l := by
  simp [sepItem, keyItem, Prod.Lex.toLex_lt_toLex]

@[simp] theorem sepItem_lt_keyItem {k l : K} : sepItem k < keyItem l ↔ k ≤ l := by
  simp [sepItem, keyItem, Prod.Lex.toLex_lt_toLex, le_iff_lt_or_eq]

end Items

structure Leaf (κ K : Type) where
  id : κ
  keys : List K

structure Inner (κ K T : Type) where
  id : κ
  first : T
  rest : List (K × T)

-- A tree of depth `d`. The depth is in the type, so all leaves share it.
def SepTree (κ K : Type) : Nat → Type
  | 0 => Leaf κ K
  | d + 1 => Inner κ K (SepTree κ K d)

structure Layout (κ K A B : Type) where
  addr : κ → A
  addr_injective : Function.Injective addr
  leaf : List K → B
  node : κ → List (K × κ) → B

namespace SepTree

variable {κ K A B : Type} {d : Nat}

@[match_pattern] def leaf (id : κ) (keys : List K) : SepTree κ K 0 := Leaf.mk id keys

@[match_pattern] def node (id : κ) (first : SepTree κ K d) (rest : List (K × SepTree κ K d)) :
    SepTree κ K (d + 1) := Inner.mk id first rest

theorem exists_leaf (t : SepTree κ K 0) : ∃ id keys, t = leaf id keys := ⟨t.1, t.2, rfl⟩

theorem exists_node (t : SepTree κ K (d + 1)) : ∃ id first rest, t = node id first rest :=
  ⟨t.1, t.2, t.3, rfl⟩

def id : {d : Nat} → SepTree κ K d → κ
  | 0, .leaf id _ => id
  | _ + 1, .node id _ _ => id

def flat : {d : Nat} → SepTree κ K d → List (Item K)
  | 0, .leaf _ keys => keys.map keyItem
  | _ + 1, .node _ first rest => flat first ++ rest.flatMap fun e => sepItem e.1 :: flat e.2

def keys : {d : Nat} → SepTree κ K d → List K
  | 0, .leaf _ keys => keys
  | _ + 1, .node _ first rest => keys first ++ rest.flatMap fun e => keys e.2

def size : {d : Nat} → SepTree κ K d → Nat
  | 0, .leaf _ keys => keys.length
  | _ + 1, .node _ _ rest => rest.length

variable (L : Layout κ K A B)

def body : {d : Nat} → SepTree κ K d → B
  | 0, .leaf _ keys => L.leaf keys
  | _ + 1, .node _ first rest => L.node first.id (rest.map fun e => (e.1, e.2.id))

def cells : {d : Nat} → SepTree κ K d → List (A × B)
  | 0, .leaf id keys => [(L.addr id, (leaf id keys).body L)]
  | _ + 1, .node id first rest =>
    (L.addr id, (node id first rest).body L) ::
      (cells first ++ rest.flatMap fun e => cells e.2)

def kidCells (first : SepTree κ K d) (rest : List (K × SepTree κ K d)) : List (A × B) :=
  first.cells L ++ rest.flatMap fun e => e.2.cells L

theorem kidCells_split (first : SepTree κ K d) (s : K) (child : SepTree κ K d)
    (a b : List (K × SepTree κ K d)) :
    kidCells L first (a ++ (s, child) :: b) = kidCells L first a ++ kidCells L child b := by
  simp [kidCells]

@[simp] theorem id_leaf (id : κ) (keys : List K) : (leaf id keys).id = id := rfl

@[simp] theorem id_node (id : κ) (first : SepTree κ K d) (rest : List (K × SepTree κ K d)) :
    (node id first rest).id = id := rfl

@[simp] theorem flat_leaf (id : κ) (keys : List K) : (leaf id keys).flat = keys.map keyItem := rfl

@[simp] theorem flat_node (id : κ) (first : SepTree κ K d) (rest : List (K × SepTree κ K d)) :
    (node id first rest).flat = first.flat ++ rest.flatMap fun e => sepItem e.1 :: e.2.flat := rfl

@[simp] theorem keys_leaf (id : κ) (keys : List K) : (leaf id keys).keys = keys := rfl

@[simp] theorem keys_node (id : κ) (first : SepTree κ K d) (rest : List (K × SepTree κ K d)) :
    (node id first rest).keys = first.keys ++ rest.flatMap fun e => e.2.keys := rfl

@[simp] theorem size_leaf (id : κ) (keys : List K) : (leaf id keys).size = keys.length := rfl

@[simp] theorem size_node (id : κ) (first : SepTree κ K d) (rest : List (K × SepTree κ K d)) :
    (node id first rest).size = rest.length := rfl

@[simp] theorem body_leaf (id : κ) (keys : List K) : (leaf id keys).body L = L.leaf keys := rfl

@[simp] theorem body_node (id : κ) (first : SepTree κ K d) (rest : List (K × SepTree κ K d)) :
    (node id first rest).body L = L.node first.id (rest.map fun e => (e.1, e.2.id)) := rfl

@[simp] theorem cells_leaf (id : κ) (keys : List K) :
    (leaf id keys).cells L = [(L.addr id, L.leaf keys)] := rfl

@[simp] theorem cells_node (id : κ) (first : SepTree κ K d) (rest : List (K × SepTree κ K d)) :
    (node id first rest).cells L =
      (L.addr id, (node id first rest).body L) :: kidCells L first rest := rfl

def itemKeys (items : List (Item K)) : List K :=
  items.filterMap fun i => if (ofLex i).2 then some (ofLex i).1 else none

@[simp] theorem itemKeys_nil : itemKeys ([] : List (Item K)) = [] := rfl

@[simp] theorem itemKeys_append (a b : List (Item K)) :
    itemKeys (a ++ b) = itemKeys a ++ itemKeys b := List.filterMap_append

@[simp] theorem itemKeys_sep (s : K) (items : List (Item K)) :
    itemKeys (sepItem s :: items) = itemKeys items := rfl

@[simp] theorem itemKeys_key (k : K) (items : List (Item K)) :
    itemKeys (keyItem k :: items) = k :: itemKeys items := rfl

@[simp] theorem itemKeys_map_keyItem (keys : List K) : itemKeys (keys.map keyItem) = keys := by
  induction keys with
  | nil => rfl
  | cons k keys ih => simpa [itemKeys, keyItem] using ih

theorem item_cases (i : Item K) : (∃ s, i = sepItem s) ∨ ∃ k, i = keyItem k := by
  rcases hi : ofLex i with ⟨j, _ | _⟩
  · exact .inl ⟨j, hi⟩
  · exact .inr ⟨j, hi⟩

theorem mem_itemKeys {k : K} {items : List (Item K)} :
    k ∈ itemKeys items ↔ keyItem k ∈ items := by
  induction items with
  | nil => simp
  | cons i items ih =>
    rcases item_cases i with ⟨s, rfl⟩ | ⟨l, rfl⟩
    · have hne : keyItem k ≠ sepItem s := by simp [sepItem, keyItem]
      rw [itemKeys_sep, ih, List.mem_cons, or_iff_right hne]
    · have heq : keyItem k = keyItem l ↔ k = l := by simp [keyItem]
      rw [itemKeys_key, List.mem_cons, List.mem_cons, ih, heq]

theorem itemKeys_pairwise [LinearOrder K] {items : List (Item K)} (h : items.Pairwise (· < ·)) :
    (itemKeys items).Pairwise (· < ·) := by
  induction items with
  | nil => exact List.Pairwise.nil
  | cons i items ih =>
    obtain ⟨hi, hrest⟩ := List.pairwise_cons.mp h
    rcases item_cases i with ⟨s, rfl⟩ | ⟨k, rfl⟩
    · exact ih hrest
    · exact List.pairwise_cons.mpr ⟨fun l hl =>
        keyItem_lt_keyItem.mp (hi _ (mem_itemKeys.mp hl)), ih hrest⟩

theorem itemKeys_flat : {d : Nat} → (t : SepTree κ K d) → itemKeys t.flat = t.keys
  | 0, .leaf _ keys => itemKeys_map_keyItem keys
  | d + 1, .node _ first rest => by
      have hrest : itemKeys (rest.flatMap fun e => sepItem e.1 :: e.2.flat) =
          rest.flatMap fun e => e.2.keys := by
        induction rest with
        | nil => rfl
        | cons e rest ih => simp [itemKeys_flat e.2, ih]
      rw [flat_node, itemKeys_append, itemKeys_flat first, hrest]
      rfl

end SepTree

structure Frame (κ K : Type) (d : Nat) where
  id : κ
  before : List (SepTree κ K d × K)
  after : List (K × SepTree κ K d)

namespace Frame

variable {κ K A B : Type} {d : Nat} (L : Layout κ K A B)

def fill (f : Frame κ K d) (t : SepTree κ K d) : SepTree κ K (d + 1) :=
  .node f.id (join f.before t f.after).1 (join f.before t f.after).2

def pre (f : Frame κ K d) : List (Item K) :=
  f.before.flatMap fun e => e.1.flat ++ [sepItem e.2]

def post (f : Frame κ K d) : List (Item K) :=
  f.after.flatMap fun e => sepItem e.1 :: e.2.flat

def kidIds (f : Frame κ K d) (hole : κ) : κ × List (K × κ) :=
  join (f.before.map fun e => (e.1.id, e.2)) hole (f.after.map fun e => (e.1, e.2.id))

def siblings (f : Frame κ K d) : List (SepTree κ K d) :=
  f.before.map Prod.fst ++ f.after.map Prod.snd

def size (f : Frame κ K d) : Nat := f.before.length + f.after.length

def cells (f : Frame κ K d) (hole : κ) : List (A × B) :=
  (L.addr f.id, L.node (f.kidIds hole).1 (f.kidIds hole).2) ::
    f.siblings.flatMap (SepTree.cells L)

@[simp] theorem id_fill (f : Frame κ K d) (t : SepTree κ K d) : (f.fill t).id = f.id := rfl

theorem size_fill (f : Frame κ K d) (t : SepTree κ K d) : (f.fill t).size = f.size :=
  length_join _ _ _

theorem flat_fill (f : Frame κ K d) (t : SepTree κ K d) :
    (f.fill t).flat = f.pre ++ t.flat ++ f.post := by
  obtain ⟨id, before, after⟩ := f
  simp only [fill, SepTree.flat_node, pre, post]
  induction before with
  | nil => simp
  | cons e before ih => simp [join, ih]

theorem kidIds_eq (f : Frame κ K d) (t : SepTree κ K d) :
    f.kidIds t.id = ((join f.before t f.after).1.id,
      (join f.before t f.after).2.map fun e => (e.1, e.2.id)) :=
  map_join SepTree.id f.before t f.after

theorem body_fill (f : Frame κ K d) (t : SepTree κ K d) :
    (f.fill t).body L = L.node (f.kidIds t.id).1 (f.kidIds t.id).2 := by
  rw [kidIds_eq]
  rfl

theorem kidCells_join (f : Frame κ K d) (t : SepTree κ K d) :
    (SepTree.kidCells L (join f.before t f.after).1 (join f.before t f.after).2).Perm
      (t.cells L ++ f.siblings.flatMap (SepTree.cells L)) := by
  obtain ⟨id, before, after⟩ := f
  simp only [SepTree.kidCells, siblings, List.flatMap_append, List.flatMap_map]
  induction before with
  | nil => simp
  | cons e before ih =>
    simp only [join, List.flatMap_cons, List.append_assoc]
    exact (ih.append_left _).trans (by
      simp only [← List.append_assoc]
      exact (List.perm_append_comm.append_right _).append_right _)

theorem cells_fill_eq (f : Frame κ K d) (t : SepTree κ K d) :
    (f.fill t).cells L = (L.addr f.id, L.node (f.kidIds t.id).1 (f.kidIds t.id).2) ::
      SepTree.kidCells L (join f.before t f.after).1 (join f.before t f.after).2 := by
  rw [fill, SepTree.cells_node, ← fill, body_fill]

theorem cells_fill (f : Frame κ K d) (t : SepTree κ K d) :
    ((f.fill t).cells L).Perm (t.cells L ++ f.cells L t.id) := by
  rw [cells_fill_eq, cells]
  exact ((f.kidCells_join L t).cons _).trans List.perm_middle.symm

end Frame

-- The inner nodes from a hole at depth `d` up to a root at depth `n`.
inductive Path (κ K : Type) : Nat → Nat → Type
  | nil {n : Nat} : Path κ K n n
  | cons {d n : Nat} (f : Frame κ K d) (p : Path κ K (d + 1) n) : Path κ K d n

namespace Path

variable {κ K A B : Type} {d n : Nat} (L : Layout κ K A B)

def plug : {d n : Nat} → Path κ K d n → SepTree κ K d → SepTree κ K n
  | _, _, .nil, t => t
  | _, _, .cons f p, t => p.plug (f.fill t)

def pre : {d n : Nat} → Path κ K d n → List (Item K)
  | _, _, .nil => []
  | _, _, .cons f p => p.pre ++ f.pre

def post : {d n : Nat} → Path κ K d n → List (Item K)
  | _, _, .nil => []
  | _, _, .cons f p => f.post ++ p.post

def cells : {d n : Nat} → Path κ K d n → κ → List (A × B)
  | _, _, .nil, _ => []
  | _, _, .cons f p, hole => f.cells L hole ++ p.cells f.id

theorem id_plug : {d n : Nat} → (p : Path κ K d n) → (x y : SepTree κ K d) → x.id = y.id →
    (p.plug x).id = (p.plug y).id
  | _, _, .nil, _, _, h => h
  | _, _, .cons f p, x, y, _ => id_plug p (f.fill x) (f.fill y) (by simp)

theorem flat_plug : {d n : Nat} → (p : Path κ K d n) → (t : SepTree κ K d) →
    (p.plug t).flat = p.pre ++ t.flat ++ p.post
  | _, _, .nil, t => by simp [plug, pre, post]
  | _, _, .cons f p, t => by simp [plug, pre, post, flat_plug p, f.flat_fill]

theorem cells_plug : {d n : Nat} → (p : Path κ K d n) → (t : SepTree κ K d) →
    ((p.plug t).cells L).Perm (t.cells L ++ p.cells L t.id)
  | _, _, .nil, t => by simp [plug, cells]
  | _, _, .cons f p, t => by
      rw [plug, cells, ← List.append_assoc]
      exact (cells_plug p (f.fill t)).trans ((f.cells_fill L t).append_right _)

end Path

structure Caps where
  leaf : Nat
  inner : Nat

def Caps.at (c : Caps) : Nat → Nat
  | 0 => c.leaf
  | _ + 1 => c.inner

section Filled

variable {κ K : Type} {d n : Nat} (c : Caps)

-- Every node holds at least a quarter of its capacity, rounded down.
def SepTree.Filled : {d : Nat} → SepTree κ K d → Prop
  | 0, .leaf _ keys => c.leaf / 4 ≤ keys.length ∧ keys.length ≤ c.leaf
  | _ + 1, .node _ first rest => (c.inner / 4 ≤ rest.length ∧ rest.length ≤ c.inner) ∧
      first.Filled ∧ ∀ e ∈ rest, e.2.Filled

def SepTree.KidsFilled : {d : Nat} → SepTree κ K d → Prop
  | 0, _ => True
  | _ + 1, .node _ first rest => first.Filled c ∧ ∀ e ∈ rest, e.2.Filled c

-- The root has no lower bound, except that an inner root separates something.
structure SepTree.RootFilled (t : SepTree κ K d) : Prop where
  size_le : t.size ≤ c.at d
  pos : 0 < d → 0 < t.size
  kids : t.KidsFilled c

theorem SepTree.filled_iff : {d : Nat} → (t : SepTree κ K d) →
    (t.Filled c ↔ (c.at d / 4 ≤ t.size ∧ t.size ≤ c.at d) ∧ t.KidsFilled c)
  | 0, .leaf _ _ => by simp [SepTree.Filled, SepTree.KidsFilled, Caps.at]
  | _ + 1, .node _ _ _ => Iff.rfl

theorem Frame.kidsFilled_fill (f : Frame κ K d) (t : SepTree κ K d) :
    (f.fill t).KidsFilled c ↔ t.Filled c ∧ ∀ s ∈ f.siblings, s.Filled c := by
  obtain ⟨id, before, after⟩ := f
  simp only [Frame.fill, SepTree.KidsFilled, Frame.siblings]
  induction before with
  | nil => simp only [join_nil, List.map_nil, List.nil_append, List.forall_mem_map]
  | cons e before ih =>
    simp only [join, List.forall_mem_cons, List.map_cons, List.cons_append]
    rw [ih]
    exact and_left_comm

def Path.minSize : {d n : Nat} → Path κ K d n → Nat
  | _, _, .nil => 1
  | _, _, .cons _ _ => c.inner / 4

def Path.Filled : {d n : Nat} → Path κ K d n → Prop
  | _, _, .nil => True
  | _, _, .cons f p => (∀ s ∈ f.siblings, s.Filled c) ∧
      (p.minSize c ≤ f.size ∧ f.size ≤ c.inner) ∧ p.Filled

def Path.Fits : {d n : Nat} → Path κ K d n → SepTree κ K d → Prop
  | _, _, .nil, t => t.RootFilled c
  | _, _, .cons _ _, t => t.Filled c

theorem Path.fits_fill (p : Path κ K (d + 1) n) (f : Frame κ K d) (t : SepTree κ K d) :
    p.Fits c (f.fill t) ↔ (t.Filled c ∧ ∀ s ∈ f.siblings, s.Filled c) ∧
      p.minSize c ≤ f.size ∧ f.size ≤ c.inner := by
  rw [← f.kidsFilled_fill, ← f.size_fill t]
  cases p with
  | nil =>
    exact ⟨fun h => ⟨h.kids, h.pos (Nat.succ_pos _), h.size_le⟩,
      fun h => ⟨h.2.2, fun _ => h.2.1, h.1⟩⟩
  | cons g p =>
    simp only [Path.Fits, SepTree.filled_iff, Path.minSize, Caps.at]
    exact and_comm

theorem Path.rootFilled_plug : {d n : Nat} → (p : Path κ K d n) → (t : SepTree κ K d) →
    ((p.plug t).RootFilled c ↔ p.Fits c t ∧ p.Filled c)
  | _, _, .nil, t => by simp [Path.plug, Path.Fits, Path.Filled]
  | _, _, .cons f p, t => by
      rw [Path.plug, Path.rootFilled_plug p, Path.fits_fill]
      simp only [Path.Fits, Path.Filled]
      tauto

end Filled

end WaveDb.Lib
