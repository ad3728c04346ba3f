import Mathlib

-- Trees over one long sequence, cut into runs at the leaves.
namespace WaveDb.Lib

structure RunNode (κ X : Type) where
  id : κ
  items : List X

def RunTree (κ E : Type) : Nat → Type
  | 0 => RunNode κ E
  | d + 1 => RunNode κ (RunTree κ E d)

namespace RunTree

structure Layout (κ E A B : Type) where
  addr : κ → A
  leaf : List E → B
  node : List (κ × List E) → B

variable {κ E A B : Type} {d n : Nat}

@[match_pattern] def leaf (id : κ) (entries : List E) : RunTree κ E 0 :=
  (⟨id, entries⟩ : RunNode κ E)

@[match_pattern] def node (id : κ) (kids : List (RunTree κ E d)) : RunTree κ E (d + 1) :=
  (⟨id, kids⟩ : RunNode κ (RunTree κ E d))

def id : {d : Nat} → RunTree κ E d → κ
  | 0, .leaf id _ => id
  | _ + 1, .node id _ => id

def flat : {d : Nat} → RunTree κ E d → List E
  | 0, .leaf _ entries => entries
  | _ + 1, .node _ kids => kids.flatMap flat

def length : {d : Nat} → RunTree κ E d → Nat
  | 0, .leaf _ entries => entries.length
  | _ + 1, .node _ kids => kids.length

def label (t : RunTree κ E d) : κ × List E := (t.id, t.flat)

variable (L : Layout κ E A B)

def body : {d : Nat} → RunTree κ E d → B
  | 0, .leaf _ entries => L.leaf entries
  | _ + 1, .node _ kids => L.node (kids.map label)

def cells : {d : Nat} → RunTree κ E d → List (A × B)
  | 0, .leaf id entries => [(L.addr id, L.leaf entries)]
  | _ + 1, .node id kids => (L.addr id, L.node (kids.map label)) :: kids.flatMap cells

def below : {d : Nat} → RunTree κ E d → List (A × B)
  | 0, _ => []
  | _ + 1, .node _ kids => kids.flatMap (cells L)

theorem cells_eq : {d : Nat} → (t : RunTree κ E d) →
    t.cells L = (L.addr t.id, t.body L) :: t.below L
  | 0, .leaf _ _ => rfl
  | _ + 1, .node _ _ => rfl

@[simp] theorem id_leaf (id : κ) (entries : List E) : (leaf id entries).id = id := rfl

@[simp] theorem id_node (id : κ) (kids : List (RunTree κ E d)) : (node id kids).id = id := rfl

@[simp] theorem flat_leaf (id : κ) (entries : List E) : (leaf id entries).flat = entries := rfl

@[simp] theorem flat_node (id : κ) (kids : List (RunTree κ E d)) :
    (node id kids).flat = kids.flatMap flat := rfl

@[simp] theorem below_node (id : κ) (kids : List (RunTree κ E d)) :
    (node id kids).below L = kids.flatMap (cells L) := rfl

@[simp] theorem below_leaf (id : κ) (entries : List E) : (leaf id entries).below L = [] := rfl

def lower (m : Nat) (id : κ) : {d : Nat} → RunTree κ E d → RunTree κ E d
  | 0, .leaf _ entries => .leaf id (entries.take m)
  | _ + 1, .node _ kids => .node id (kids.take m)

def upper (m : Nat) (id : κ) : {d : Nat} → RunTree κ E d → RunTree κ E d
  | 0, .leaf _ entries => .leaf id (entries.drop m)
  | _ + 1, .node _ kids => .node id (kids.drop m)

@[simp] theorem id_lower (m : Nat) (id : κ) : {d : Nat} → (t : RunTree κ E d) →
    (t.lower m id).id = id
  | 0, .leaf _ _ => rfl
  | _ + 1, .node _ _ => rfl

@[simp] theorem id_upper (m : Nat) (id : κ) : {d : Nat} → (t : RunTree κ E d) →
    (t.upper m id).id = id
  | 0, .leaf _ _ => rfl
  | _ + 1, .node _ _ => rfl

theorem flat_halves (m : Nat) (i j : κ) : {d : Nat} → (t : RunTree κ E d) →
    (t.lower m i).flat ++ (t.upper m j).flat = t.flat
  | 0, .leaf _ entries => List.take_append_drop m entries
  | _ + 1, .node _ kids => by
      change (kids.take m).flatMap flat ++ (kids.drop m).flatMap flat = kids.flatMap flat
      rw [← List.flatMap_append, List.take_append_drop]

theorem below_halves (m : Nat) (i j : κ) : {d : Nat} → (t : RunTree κ E d) →
    (t.lower m i).below L ++ (t.upper m j).below L = t.below L
  | 0, .leaf _ _ => rfl
  | _ + 1, .node _ kids => by
      change (kids.take m).flatMap (cells L) ++ (kids.drop m).flatMap (cells L) =
        kids.flatMap (cells L)
      rw [← List.flatMap_append, List.take_append_drop]

def Full : {d : Nat} → RunTree κ E d → Prop
  | 0, .leaf _ entries => entries ≠ []
  | _ + 1, .node _ kids => kids ≠ [] ∧ ∀ c ∈ kids, c.Full

def KidsFull : {d : Nat} → RunTree κ E d → Prop
  | 0, _ => True
  | _ + 1, .node _ kids => ∀ c ∈ kids, c.Full

theorem full_iff : {d : Nat} → (t : RunTree κ E d) → (t.Full ↔ t.length ≠ 0 ∧ t.KidsFull)
  | 0, .leaf _ entries => by simp [Full, length, KidsFull]
  | _ + 1, .node _ kids => by simp [Full, length, KidsFull]

theorem Full.flat_ne_nil : {d : Nat} → {t : RunTree κ E d} → t.Full → t.flat ≠ []
  | 0, .leaf _ _, h => h
  | _ + 1, .node _ [], h => absurd rfl h.1
  | _ + 1, .node _ (c :: _), h => fun hnil =>
    (h.2 c List.mem_cons_self).flat_ne_nil (List.append_eq_nil_iff.mp hnil).1

theorem flat_eq_nil_iff {t : RunTree κ E d} (h : t.KidsFull) : t.flat = [] ↔ t.length = 0 := by
  constructor
  · intro hnil
    by_contra hne
    exact ((full_iff t).mpr ⟨hne, h⟩).flat_ne_nil hnil
  · intro hzero
    match d, t with
    | 0, .leaf _ entries => exact List.eq_nil_of_length_eq_zero hzero
    | d + 1, .node _ kids =>
      obtain rfl : kids = [] := List.eq_nil_of_length_eq_zero hzero
      rfl

theorem full_halves {m : Nat} {i j : κ} {t : RunTree κ E d} (h : t.KidsFull) (h0 : 0 < m)
    (hm : m < t.length) : (t.lower m i).Full ∧ (t.upper m j).Full := by
  match d, t with
  | 0, .leaf _ entries =>
    simp only [length] at hm
    simp only [lower, upper, Full, ne_eq, List.take_eq_nil_iff, List.drop_eq_nil_iff, not_or]
    exact ⟨⟨by omega, by rintro rfl; simp at hm⟩, by omega⟩
  | d + 1, .node _ kids =>
    simp only [length] at hm
    simp only [lower, upper, Full, ne_eq, List.take_eq_nil_iff, List.drop_eq_nil_iff, not_or]
    exact ⟨⟨⟨by omega, by rintro rfl; simp at hm⟩, fun c hc => h c (List.mem_of_mem_take hc)⟩,
      by omega, fun c hc => h c (List.mem_of_mem_drop hc)⟩

structure Frame (κ E : Type) (d : Nat) where
  id : κ
  before : List (RunTree κ E d)
  after : List (RunTree κ E d)

namespace Frame

variable (f : Frame κ E d)

def fill (ts : List (RunTree κ E d)) : RunTree κ E (d + 1) := .node f.id (f.before ++ ts ++ f.after)

def pre : List E := f.before.flatMap flat

def post : List E := f.after.flatMap flat

def siblings : List (RunTree κ E d) := f.before ++ f.after

def cells (hole : κ × List E) : List (A × B) :=
  (L.addr f.id, L.node (f.before.map label ++ hole :: f.after.map label)) ::
    f.siblings.flatMap (RunTree.cells L)

@[simp] theorem id_fill (ts : List (RunTree κ E d)) : (f.fill ts).id = f.id := rfl

theorem flat_fill (ts : List (RunTree κ E d)) :
    (f.fill ts).flat = f.pre ++ ts.flatMap flat ++ f.post := by
  simp [fill, pre, post]

theorem kidsFull_fill (ts : List (RunTree κ E d)) :
    (f.fill ts).KidsFull ↔ (∀ c ∈ ts, c.Full) ∧ ∀ c ∈ f.siblings, c.Full := by
  simp only [fill, KidsFull, siblings, List.mem_append]
  grind

theorem below_fill (ts : List (RunTree κ E d)) :
    ((f.fill ts).below L).Perm (ts.flatMap (RunTree.cells L) ++
      f.siblings.flatMap (RunTree.cells L)) := by
  rw [← Multiset.coe_eq_coe]
  simp only [fill, below_node, siblings, List.flatMap_append, ← Multiset.coe_add]
  abel

end Frame

inductive Path (κ E : Type) : Nat → Nat → Type
  | nil {n : Nat} : Path κ E n n
  | cons {d n : Nat} (f : Frame κ E d) (p : Path κ E (d + 1) n) : Path κ E d n

namespace Path

def plug : {d n : Nat} → Path κ E d n → RunTree κ E d → RunTree κ E n
  | _, _, .nil, t => t
  | _, _, .cons f p, t => p.plug (f.fill [t])

def pre : {d n : Nat} → Path κ E d n → List E
  | _, _, .nil => []
  | _, _, .cons f p => p.pre ++ f.pre

def post : {d n : Nat} → Path κ E d n → List E
  | _, _, .nil => []
  | _, _, .cons f p => f.post ++ p.post

def cells : {d n : Nat} → Path κ E d n → κ × List E → List (A × B)
  | _, _, .nil, _ => []
  | _, _, .cons f p, hole => f.cells L hole ++ p.cells (f.id, f.pre ++ hole.2 ++ f.post)

def Full : {d n : Nat} → Path κ E d n → Prop
  | _, _, .nil => True
  | _, _, .cons f p => (∀ c ∈ f.siblings, c.Full) ∧ p.Full

theorem flat_plug : {d n : Nat} → (p : Path κ E d n) → (t : RunTree κ E d) →
    (p.plug t).flat = p.pre ++ t.flat ++ p.post
  | _, _, .nil, t => by simp [plug, pre, post]
  | _, _, .cons f p, t => by simp [plug, pre, post, flat_plug p, f.flat_fill]

theorem id_plug : {d n : Nat} → (p : Path κ E d n) → (x y : RunTree κ E d) → x.id = y.id →
    (p.plug x).id = (p.plug y).id
  | _, _, .nil, _, _, h => h
  | _, _, .cons f p, x, y, _ => id_plug p (f.fill [x]) (f.fill [y]) rfl

theorem cells_plug : {d n : Nat} → (p : Path κ E d n) → (t : RunTree κ E d) →
    ((p.plug t).cells L).Perm (t.cells L ++ p.cells L t.label)
  | _, _, .nil, t => by simp [plug, cells]
  | _, _, .cons f p, t => by
      have hp := cells_plug p (f.fill [t])
      have hlabel : (f.fill [t]).label = (f.id, f.pre ++ t.flat ++ f.post) := by
        rw [label, f.flat_fill]
        simp [Frame.fill]
      rw [hlabel, cells_eq L (f.fill [t])] at hp
      have hbelow := (f.below_fill L [t])
      have hbody : (f.fill [t]).body L =
          L.node (f.before.map label ++ t.label :: f.after.map label) := by
        simp [Frame.fill, body]
      rw [plug, cells, ← Multiset.coe_eq_coe]
      rw [← Multiset.coe_eq_coe] at hp hbelow
      rw [hp]
      simp only [Frame.cells, ← Multiset.coe_add, ← Multiset.cons_coe,
        ← Multiset.singleton_add, List.flatMap_cons, List.flatMap_nil, List.append_nil] at hbelow ⊢
      rw [hbelow, hbody]
      have hid : (f.fill [t]).id = f.id := rfl
      have hl : t.label.2 = t.flat := rfl
      rw [hid, hl]
      abel

end Path

end RunTree

end WaveDb.Lib
