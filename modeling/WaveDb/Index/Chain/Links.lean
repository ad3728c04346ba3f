import WaveDb.Index.Chain
import WaveDb.Index.Sparse.Spec

namespace WaveDb.Index

open WaveDb.Lib WaveDb.Core

-- A chain as the list of its segments. Their links follow from the order.
abbrev Segs (K P : Type) := List (LocalId × List (K × P))

section Links

variable {V K P : Type} [LaneCodec V (Segment K P)]

def firstId (segs : Segs K P) (next : Option LocalId) : Option LocalId :=
  match segs with
  | [] => next
  | s :: _ => some s.1

def lastId (prev : Option LocalId) : Segs K P → Option LocalId
  | [] => prev
  | s :: rest => lastId (some s.1) rest

def segCells (V : Type) [LaneCodec V (Segment K P)] (tenant laneHash : Nat) :
    Option LocalId → Segs K P → Option LocalId → List (Id × V)
  | _, [], _ => []
  | prev, s :: rest, next =>
    (s.1.toId tenant, LaneCodec.toBytes laneHash
      (⟨prev, firstId rest next, s.2⟩ : Segment K P)) ::
      segCells V tenant laneHash (some s.1) rest next

theorem firstId_append (a b : Segs K P) (next : Option LocalId) :
    firstId (a ++ b) next = firstId a (firstId b next) := by
  cases a <;> rfl

theorem lastId_append (a b : Segs K P) (prev : Option LocalId) :
    lastId prev (a ++ b) = lastId (lastId prev a) b := by
  induction a generalizing prev with
  | nil => rfl
  | cons s a ih => exact ih (some s.1)

theorem lastId_of_ne_nil {segs : Segs K P} (h : segs ≠ []) (p q : Option LocalId) :
    lastId p segs = lastId q segs := by
  cases segs with
  | nil => exact absurd rfl h
  | cons s segs => rfl

variable {tenant laneHash : Nat}

theorem segCells_append (prev next : Option LocalId) (a b : Segs K P) :
    segCells V tenant laneHash prev (a ++ b) next =
      segCells V tenant laneHash prev a (firstId b next) ++
        segCells V tenant laneHash (lastId prev a) b next := by
  induction a generalizing prev with
  | nil => rfl
  | cons s a ih =>
    simp only [List.cons_append, segCells, firstId_append, ih]
    rfl

theorem segCells_focus (tenant laneHash : Nat) (prev next : Option LocalId) (a b : Segs K P)
    (s : LocalId × List (K × P)) :
    (segCells V tenant laneHash prev (a ++ s :: b) next).Perm
      ((s.1.toId tenant, LaneCodec.toBytes laneHash
        (⟨lastId prev a, firstId b next, s.2⟩ : Segment K P)) ::
        (segCells V tenant laneHash prev a (some s.1) ++
          segCells V tenant laneHash (some s.1) b next)) := by
  rw [segCells_append]
  exact List.perm_middle

theorem segCells_focus_pair (tenant laneHash : Nat) (prev next : Option LocalId) (a b : Segs K P)
    (l r : LocalId × List (K × P)) :
    (segCells V tenant laneHash prev (a ++ l :: r :: b) next).Perm
      ((l.1.toId tenant, LaneCodec.toBytes laneHash
        (⟨lastId prev a, some r.1, l.2⟩ : Segment K P)) ::
        (r.1.toId tenant, LaneCodec.toBytes laneHash
          (⟨some l.1, firstId b next, r.2⟩ : Segment K P)) ::
        (segCells V tenant laneHash prev a (some l.1) ++
          segCells V tenant laneHash (some r.1) b next)) := by
  rw [segCells_append, segCells, segCells]
  exact List.perm_middle.trans (List.Perm.cons _ List.perm_middle)

variable [DecidableEq V] {c : Chain} {kinds : List Nat} {w₀ w : World V}
  {writes : List (Write V)} {old rest : List (Id × V)}

omit [DecidableEq V] in
theorem asks_chain_load (c : Chain) (id : LocalId) :
    (c.load id : Engine V (Segment K P)).Asks (Op.ReadsIn c.tenant) := by
  refine Prog.Asks.bind (asks_getOf rfl) fun bytes => ?_
  cases bytes with
  | none => trivial
  | some bytes => exact Prog.asks_ofExcept _

theorem chain_load_eq {id : LocalId} {seg : Segment K P}
    (h : w.store (id.toId c.tenant) = some (LaneCodec.toBytes c.laneHash seg)) :
    (c.load id : Engine V (Segment K P)).runIn w = (.ok seg, w) := by
  rw [Chain.load, Engine.runIn_bind_ok (Engine.runIn_getOf _ _ _), h]
  simp only [LaneCodec.fromBytes_toBytes]
  rfl

theorem load_onView (id : LocalId) (seg : Segment K P) {cells : List (Id × V)}
    (h : Planned c.tenant kinds w₀ w writes old cells)
    (hmem : (id.toId c.tenant, LaneCodec.toBytes c.laneHash seg) ∈ cells) :
    (Engine.onView writes (c.load id) : Engine V (Segment K P)).runIn w = (.ok seg, w) := by
  have hstore := h.store_eq
  have hheld := h.replaces.holds _ hmem
  rw [Engine.runIn_onView (asks_chain_load c id), chain_load_eq]
  · rfl
  · rw [World.view, hstore]
    exact hheld

theorem attach_next (b : Segs K P) (prev : Option LocalId) (id : LocalId)
    (h : Planned c.tenant kinds w₀ w writes old
      (segCells V c.tenant c.laneHash prev b none ++ rest)) :
    ∃ writes', (c.attach K P writes (firstId b none) id false).runIn w =
        (.ok (if b = [] then { c with tail := id } else c, writes'), w) ∧
      Planned c.tenant kinds w₀ w writes' old
        (segCells V c.tenant c.laneHash (some id) b none ++ rest) := by
  cases b with
  | nil => exact ⟨writes, by simp [Chain.attach, firstId], h⟩
  | cons s b =>
    refine ⟨_, ?_, h.put (LaneCodec.toBytes c.laneHash
      (⟨some id, firstId b none, s.2⟩ : Segment K P))⟩
    have hload := load_onView s.1 ⟨prev, firstId b none, s.2⟩ h (by simp [segCells])
    have hfirst : firstId (s :: b) none = some s.1 := rfl
    simp only [hfirst, Chain.attach, Chain.relink]
    rw [Engine.runIn_bind_ok (Engine.runIn_bind_ok hload)]
    simp [Chain.put]

theorem attach_prev (a : Segs K P) (next : Option LocalId) (id : LocalId)
    (h : Planned c.tenant kinds w₀ w writes old
      (segCells V c.tenant c.laneHash none a next ++ rest)) :
    ∃ writes', (c.attach K P writes (lastId none a) id true).runIn w =
        (.ok (if a = [] then { c with head := id } else c, writes'), w) ∧
      Planned c.tenant kinds w₀ w writes' old
        (segCells V c.tenant c.laneHash none a (some id) ++ rest) := by
  rcases List.eq_nil_or_concat a with rfl | ⟨a, s, rfl⟩
  · exact ⟨writes, by simp [Chain.attach, lastId], h⟩
  · rw [List.concat_eq_append] at h ⊢
    have hlast : lastId none (a ++ [s]) = some s.1 := by rw [lastId_append]; rfl
    have hfocus (next : Option LocalId) :=
      segCells_focus (V := V) c.tenant c.laneHash none next a [] s
    have hput := (h.perm ((hfocus next).append_right rest)).put (LaneCodec.toBytes c.laneHash
      (⟨lastId none a, some id, s.2⟩ : Segment K P))
    refine ⟨_, ?_, hput.perm ((hfocus (some id)).append_right rest).symm⟩
    have hload := load_onView s.1 ⟨lastId none a, next, s.2⟩ h
      (by simp [segCells_append, segCells, firstId])
    simp only [Chain.attach, hlast, Chain.relink]
    rw [Engine.runIn_bind_ok (Engine.runIn_bind_ok hload)]
    simp [Chain.put]

end Links

end WaveDb.Index
