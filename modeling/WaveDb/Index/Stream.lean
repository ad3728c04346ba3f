import WaveDb.Core.Store
import WaveDb.Lib.Poll

-- Set algebra over the id streams a search yields.
namespace WaveDb.Index

open WaveDb.Lib WaveDb.Core

abbrev IdStream := List (Tick (Except Error Id))

-- Drives a stream to its end, up to a failure or a suspension.
def drainInto : IdStream → Finset Id → Poll (Except Error Unit) × Finset Id × IdStream
  | [], set => (.ready (.ok ()), set, [])
  | .pending :: s, set => (.pending, set, s)
  | .item (.ok id) :: s, set => drainInto s (insert id set)
  | .item (.error e) :: s, set => (.ready (.error e), set, s)

-- Polls the left side until an id whose membership is `wanted`.
def probe (wanted : Bool) (set : Finset Id) : IdStream → Poll (Option (Except Error Id)) × IdStream
  | [] => (.ready none, [])
  | .pending :: s => (.pending, s)
  | .item (.error e) :: s => (.ready (some (.error e)), s)
  | .item (.ok id) :: s =>
    if decide (id ∈ set) = wanted then (.ready (some (.ok id)), s) else probe wanted set s

-- The state of `Intersect` and of `Except`.
structure Probing where
  left : IdStream
  right : IdStream
  buffered : Option (Finset Id)

namespace Probing

def pollLeft (wanted : Bool) (st : Probing) (set : Finset Id) :
    Poll (Option (Except Error Id)) × Probing :=
  ((probe wanted set st.left).1,
    { st with left := (probe wanted set st.left).2, buffered := some set })

-- The poll of both adapters, which differ in the ids they let through.
def pollNext (wanted : Bool) (st : Probing) : Poll (Option (Except Error Id)) × Probing :=
  match st.buffered with
  | some set => st.pollLeft wanted set
  | none =>
    -- The set is local to the call: a suspension drops what it holds.
    match drainInto st.right ∅ with
    | (.ready (.ok ()), set, right) => { st with right }.pollLeft wanted set
    | (.ready (.error e), _, right) => (.ready (some (.error e)), { st with right })
    | (.pending, _, right) => (.pending, { st with right })

end Probing

def Intersect.pollNext : Probing → Poll (Option (Except Error Id)) × Probing :=
  Probing.pollNext true

def Except.pollNext : Probing → Poll (Option (Except Error Id)) × Probing :=
  Probing.pollNext false

def intersect (left right : IdStream) : Probing := ⟨left, right, none⟩

def except (left right : IdStream) : Probing := ⟨left, right, none⟩

structure Union where
  left : IdStream
  right : IdStream
  seen : Finset Id
  leftDone : Bool

def pollUnseen (seen : Finset Id) :
    IdStream → Poll (Option (Except Error Id)) × IdStream × Finset Id
  | [] => (.ready none, [], seen)
  | .pending :: s => (.pending, s, seen)
  | .item (.error e) :: s => (.ready (some (.error e)), s, seen)
  | .item (.ok id) :: s =>
    if id ∈ seen then pollUnseen seen s else (.ready (some (.ok id)), s, insert id seen)

namespace Union

def pollRight (st : Union) : Poll (Option (Except Error Id)) × Union :=
  match pollUnseen st.seen st.right with
  | (answer, right, seen) => (answer, { st with right, seen })

def pollNext (st : Union) : Poll (Option (Except Error Id)) × Union :=
  if st.leftDone then st.pollRight
  else
    match pollUnseen st.seen st.left with
    | (.ready none, left, seen) => { st with left, seen, leftDone := true }.pollRight
    | (answer, left, seen) => (answer, { st with left, seen })

end Union

def union (left right : IdStream) : Union := ⟨left, right, ∅, false⟩

def Flawless (s : IdStream) : Prop := ∀ e, Tick.item (.error e) ∉ s

def ids (s : IdStream) : List Id := (items s).filterMap Except.toOption

theorem ids_item (id : Id) (s : IdStream) : ids (.item (.ok id) :: s) = id :: ids s := rfl

theorem Flawless.tail {t : Tick (Except Error Id)} {s : IdStream} (h : Flawless (t :: s)) :
    Flawless s := fun e he => h e (List.mem_cons_of_mem _ he)

section Probing

variable (wanted : Bool) (set : Finset Id)

theorem yields_buffered {left : IdStream} (right : IdStream) (h : Flawless left) :
    Yields (Probing.pollNext wanted) ⟨left, right, some set⟩
      (((ids left).filter fun id => decide (id ∈ set) = wanted).map .ok) := by
  induction left with
  | nil => exact .done rfl
  | cons t left ih =>
    have ih := ih h.tail
    cases t with
    | pending => exact .pending rfl ih
    | item r =>
      cases r with
      | error e => exact absurd List.mem_cons_self (h e)
      | ok id =>
        rw [ids_item]
        by_cases hid : decide (id ∈ set) = wanted
        · rw [List.filter_cons_of_pos (by simpa using hid), List.map_cons]
          refine .item ?_ ih
          simp [Probing.pollNext, Probing.pollLeft, probe, hid]
        · rw [List.filter_cons_of_neg (by simpa using hid)]
          refine .congr ?_ ih
          simp [Probing.pollNext, Probing.pollLeft, probe, hid]

def ReadyOnceStarted : IdStream → Prop
  | [] => True
  | .pending :: s => ReadyOnceStarted s
  | .item _ :: s => Tick.pending ∉ s

theorem drainInto_eq {right : IdStream} (h : Flawless right) (hready : Tick.pending ∉ right) : drainInto right set = (.ready (.ok ()), set ∪ (ids right).toFinset, []) := by
  induction right generalizing set with
  | nil => simp [drainInto, ids, items]
  | cons t right ih =>
    cases t with
    | pending => exact absurd List.mem_cons_self hready
    | item r =>
      cases r with
      | error e => exact absurd List.mem_cons_self (h e)
      | ok id =>
        rw [drainInto, ih (insert id set) h.tail fun hr => hready (List.mem_cons_of_mem _ hr), ids_item,
          List.toFinset_cons, Finset.insert_union, Finset.union_insert]

theorem yields_probing {left right : IdStream} (hl : Flawless left) (hr : Flawless right)
    (hready : ReadyOnceStarted right) :
    Yields (Probing.pollNext wanted) ⟨left, right, none⟩
      (((ids left).filter fun id => decide (id ∈ ids right) = wanted).map .ok) := by
  have hdrained : ∀ right, Flawless right → Tick.pending ∉ right →
      Yields (Probing.pollNext wanted) ⟨left, right, none⟩
        (((ids left).filter fun id => decide (id ∈ ids right) = wanted).map .ok) := by
    intro right hr hready
    have hdrain := drainInto_eq ∅ hr hready
    have hbuffered := yields_buffered wanted (ids right).toFinset [] hl
    simp only [List.mem_toFinset] at hbuffered
    refine .congr ?_ hbuffered
    simp only [Probing.pollNext, hdrain, Finset.empty_union, Probing.pollLeft]
  induction right with
  | nil => exact hdrained [] hr (by simp)
  | cons t right ih =>
    cases t with
    | pending => exact .pending rfl (ih hr.tail hready)
    | item r =>
      refine hdrained _ hr fun hmem => ?_
      exact hready ((List.mem_cons.mp hmem).resolve_left (by simp))

end Probing

section Union

def unseen (seen : Finset Id) : List Id → List Id
  | [] => []
  | id :: rest => if id ∈ seen then unseen seen rest else id :: unseen (insert id seen) rest

theorem mem_unseen {seen : Finset Id} {all : List Id} {id : Id} :
    id ∈ unseen seen all ↔ id ∈ all ∧ id ∉ seen := by
  induction all generalizing seen with
  | nil => simp [unseen]
  | cons first rest ih =>
    rw [unseen]
    split
    · next h =>
        rw [ih, List.mem_cons]
        have : id = first → id ∈ seen := fun heq => heq ▸ h
        tauto
    · next h =>
        rw [List.mem_cons, ih, List.mem_cons, Finset.mem_insert]
        have : id = first → id ∉ seen := fun heq => heq ▸ h
        tauto

theorem nodup_unseen (seen : Finset Id) (all : List Id) : (unseen seen all).Nodup := by
  induction all generalizing seen with
  | nil => exact List.nodup_nil
  | cons first rest ih =>
    rw [unseen]
    split
    · exact ih seen
    · refine List.nodup_cons.mpr ⟨fun h => ?_, ih _⟩
      exact (mem_unseen.mp h).2 (Finset.mem_insert_self _ _)

theorem yields_right (left : IdStream) {right : IdStream} (h : Flawless right) (seen : Finset Id) :
    Yields Union.pollNext ⟨left, right, seen, true⟩ ((unseen seen (ids right)).map .ok) := by
  induction right generalizing seen with
  | nil => exact .done rfl
  | cons t right ih =>
    cases t with
    | pending => exact .pending rfl (ih h.tail seen)
    | item r =>
      cases r with
      | error e => exact absurd List.mem_cons_self (h e)
      | ok id =>
        rw [ids_item, unseen]
        by_cases hid : id ∈ seen
        · rw [if_pos hid]
          refine .congr ?_ (ih h.tail seen)
          simp [Union.pollNext, Union.pollRight, pollUnseen, hid]
        · rw [if_neg hid, List.map_cons]
          refine .item ?_ (ih h.tail (insert id seen))
          simp [Union.pollNext, Union.pollRight, pollUnseen, hid]

theorem yields_union {left right : IdStream} (hl : Flawless left) (hr : Flawless right)
    (seen : Finset Id) : Yields Union.pollNext ⟨left, right, seen, false⟩
      ((unseen seen (ids left ++ ids right)).map .ok) := by
  induction left generalizing seen with
  | nil =>
    have hpoll : Union.pollNext ⟨[], right, seen, false⟩ =
      Union.pollNext ⟨[], right, seen, true⟩ := rfl
    exact .congr hpoll (yields_right [] hr seen)
  | cons t left ih =>
    cases t with
    | pending => exact .pending rfl (ih hl.tail seen)
    | item r =>
      cases r with
      | error e => exact absurd List.mem_cons_self (hl e)
      | ok id =>
        rw [ids_item, List.cons_append, unseen]
        by_cases hid : id ∈ seen
        · rw [if_pos hid]
          refine .congr ?_ (ih hl.tail seen)
          simp [Union.pollNext, pollUnseen, hid]
        · rw [if_neg hid, List.map_cons]
          refine .item ?_ (ih hl.tail (insert id seen))
          simp [Union.pollNext, pollUnseen, hid]

end Union

def sampleId (key : Nat) : Id := ⟨key, 1, 0⟩

end WaveDb.Index
