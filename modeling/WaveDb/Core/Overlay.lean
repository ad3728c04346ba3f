import WaveDb.Core.Plan

-- A plan-time view of the store with a batch's pending writes layered on top.
namespace WaveDb.Core

open WaveDb.Lib

variable {V α β : Type}

-- What one staged write leaves under an id: `some none` is a pending remove.
def Write.pendingAt (id : Id) : Write V → Option (Option V)
  | .put id' value => if id' = id then some (some value) else none
  | .remove _ id' => if id' = id then some none else none
  | .expect _ _ _ => none

def pendingAt (id : Id) : List (Write V) → Option (Option V)
  | [] => none
  | w :: staged => (pendingAt id staged).or (w.pendingAt id)

theorem write_eq (s : Store V) (w : Write V) (id : Id) :
    s.write w id = (w.pendingAt id).getD (s id) := by
  cases w with
  | put id' value =>
    rcases eq_or_ne id' id with rfl | hne
    · simp [Write.pendingAt]
    · simp [Write.pendingAt, hne, Function.update_of_ne hne.symm]
  | remove hash id' =>
    rcases eq_or_ne id' id with rfl | hne
    · simp [Write.pendingAt]
    · simp [Write.pendingAt, hne, Function.update_of_ne hne.symm]
  | expect hash id' value => rfl

theorem writes_eq (s : Store V) (staged : List (Write V)) (id : Id) :
    s.writes staged id = (pendingAt id staged).getD (s id) := by
  induction staged generalizing s with
  | nil => rfl
  | cons w staged ih =>
    rw [Store.writes_cons, ih, pendingAt, write_eq]
    cases pendingAt id staged <;> rfl

namespace Engine

-- A program run on the view. The view refuses a batch.
def onView (staged : List (Write V)) : Engine V α → Engine V α
  | .pure a => .pure a
  | .fail e => .fail e
  | .stuck => .stuck
  | .ask (.getOf hash id) k =>
    match pendingAt id staged with
    | some slot => onView staged (k slot)
    | none => .ask (.getOf hash id) fun slot => onView staged (k slot)
  | .ask (.apply _) k => onView staged (k (.error .backend))
  | .ask .keyNanos k => .ask .keyNanos fun nanos => onView staged (k nanos)
  | .ask (.mintInstant floor) k => .ask (.mintInstant floor) fun instant =>
    onView staged (k instant)

end Engine

-- Plans read and mint; they do not commit. What they read is one tenant's.
def Op.ReadsIn (tenant : Nat) : Op V → Prop
  | .getOf _ id => id.tenant = tenant
  | .apply _ => False
  | .keyNanos => True
  | .mintInstant _ => True

theorem asks_getOf {tenant hash : Nat} {id : Id} (h : id.tenant = tenant) :
    (Engine.getOf hash id : Engine V (Option V)).Asks (Op.ReadsIn tenant) := Prog.asks_perform h

theorem asks_keyNanos {tenant : Nat} : (Engine.keyNanos : Engine V Nat).Asks (Op.ReadsIn tenant) :=
  Prog.asks_perform trivial

namespace World

def view (w : World V) (staged : List (Write V)) : World V :=
  { w with store := w.store.writes staged }

end World

namespace Engine

variable [DecidableEq V]

theorem runIn_onView {tenant : Nat} {p : Engine V α} (hp : p.Asks (Op.ReadsIn tenant)) (staged : List (Write V))
    (w : World V) : (p.onView staged).runIn w =
      ((p.runIn (w.view staged)).1, { (p.runIn (w.view staged)).2 with store := w.store }) := by
  induction p generalizing w with
  | pure a => rfl
  | fail e => rfl
  | stuck => rfl
  | ask o k ih =>
    cases o with
    | apply batch => exact absurd hp.1 not_false
    | keyNanos => exact ih _ (hp.2 _) w.tick
    | mintInstant floor => exact ih _ (hp.2 _) _
    | getOf hash id =>
      have hview : (w.view staged).store id = (pendingAt id staged).getD (w.store id) :=
        writes_eq w.store staged id
      have hstep : runIn (Prog.ask (.getOf hash id) k) (w.view staged) =
          runIn (k ((pendingAt id staged).getD (w.store id))) (w.view staged) := by
        rw [← hview]
        rfl
      rw [hstep, onView]
      cases hpend : pendingAt id staged with
      | some slot => exact ih _ (hp.2 _) w
      | none => exact ih _ (hp.2 _) w

theorem Returns.onView {tenant : Nat} {p : Nat → Engine V α}
    (hp : ∀ fuel, (p fuel).Asks (Op.ReadsIn tenant))
    (staged : List (Write V)) {w w' : World V} {a : α}
    (h : Returns p (w.view staged) a w') :
    Returns (fun fuel => (p fuel).onView staged) w a { w' with store := w.store } := by
  obtain ⟨bound, h⟩ := h
  refine ⟨bound, fun fuel hfuel => ?_⟩
  rw [runIn_onView (hp fuel), h fuel hfuel]

end Engine

theorem Planned.through [DecidableEq V] {tenant : Nat} {kinds : List Nat} {w₀ w w' : World V}
    {writes batch : List (Write V)} {old mine mine' rest : List (Id × V)}
    {p : Nat → Engine V (List (Write V))}
    (h : Planned tenant kinds w₀ w writes old (mine ++ rest))
    (hp : ∀ fuel, (p fuel).Asks (Op.ReadsIn tenant))
    (hret : Engine.Returns p (w.view writes) batch w')
    (h' : Planned tenant kinds (w.view writes) w' batch mine mine') :
    ∃ w'', Engine.Returns (fun fuel => (p fuel).onView writes) w batch w'' ∧
      Planned tenant kinds w₀ w'' (writes ++ batch) old (mine' ++ rest) := by
  have hstore := h.store_eq
  refine ⟨_, hret.onView hp writes, ?_⟩
  have hview : w.view writes = { w with store := w₀.store.writes writes } := by
    rw [World.view, hstore]
  rw [hview] at h'
  have hpart := h.part h'
  rwa [← hstore] at hpart

end WaveDb.Core
