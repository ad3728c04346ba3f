import WaveDb.Core.Typed

-- Programs that trust a read only when its bytes carry the type they asked for. On
-- these the view is as good as a store that routes by type.
namespace WaveDb.Core

open WaveDb.Lib

variable {V α β : Type}

namespace TypedWorld

def view [Headed V] (w : TypedWorld V) (staged : List (Write V)) : TypedWorld V :=
  { w with store := w.store.commitToCaches staged }

end TypedWorld

namespace Engine

def Refuses (p : Engine V α) : Prop := ∃ e, p = .fail e

theorem Refuses.bind {p : Engine V α} (hp : p.Refuses) (f : α → Engine V β) :
    (p >>= f).Refuses := by
  obtain ⟨e, rfl⟩ := hp
  exact ⟨e, rfl⟩

theorem Refuses.onView {p : Engine V α} (hp : p.Refuses) (staged : List (Write V)) :
    (p.onView staged).Refuses := by
  obtain ⟨e, rfl⟩ := hp
  exact ⟨e, rfl⟩

variable [Headed V]

-- Absent bytes and those of another type are refused, nothing is committed, the result
-- meets `Q`.
def Careful (Q : α → Prop) : Engine V α → Prop
  | .pure a => Q a
  | .fail _ => True
  | .stuck => True
  | .ask (.getOf hash _) k => Refuses (k none) ∧
      (∀ value, Headed.structHash value ≠ some hash → Refuses (k (some value))) ∧
      ∀ slot, Careful Q (k slot)
  | .ask (.apply _) _ => False
  | .ask .keyNanos k => ∀ nanos, Careful Q (k nanos)
  | .ask (.mintInstant _) k => ∀ instant, Careful Q (k instant)

theorem Careful.bind {Q : α → Prop} {R : β → Prop} {p : Engine V α} {f : α → Engine V β}
    (hp : p.Careful Q) (hf : ∀ a, Q a → (f a).Careful R) : (p >>= f).Careful R := by
  change Careful R (Prog.bind p f)
  induction p with
  | pure a => exact hf a hp
  | fail e => trivial
  | stuck => trivial
  | ask o k ih =>
    cases o with
    | getOf hash id =>
      obtain ⟨hnone, hother, hk⟩ := hp
      exact ⟨hnone.bind f, fun value h => (hother value h).bind f, fun slot => ih slot (hk slot)⟩
    | apply batch => exact hp
    | keyNanos => exact fun nanos => ih nanos (hp nanos)
    | mintInstant floor => exact fun instant => ih instant (hp instant)

theorem Careful.onView {Q : α → Prop} {p : Engine V α} (hp : p.Careful Q)
    (staged : List (Write V)) : (p.onView staged).Careful Q := by
  induction p with
  | pure a => exact hp
  | fail e => trivial
  | stuck => trivial
  | ask o k ih =>
    cases o with
    | getOf hash id =>
      obtain ⟨hnone, hother, hk⟩ := hp
      rw [Engine.onView]
      cases pendingAt id staged with
      | some slot => exact ih slot (hk slot)
      | none => exact ⟨hnone.onView staged, fun value h => (hother value h).onView staged,
          fun slot => ih slot (hk slot)⟩
    | apply batch => exact absurd hp not_false
    | keyNanos => exact fun nanos => ih nanos (hp nanos)
    | mintInstant floor => exact fun instant => ih instant (hp instant)

-- One run over the view of a store that stays `s`, one over the store with the staged
-- writes made.
inductive Agrees (Q : α → Prop) (s : TypedStore V) (staged : List (Write V)) :
    Outcome Error α × TypedWorld V → Outcome Error α × TypedWorld V → Prop
  | ok (a : α) (w : TypedWorld V) (hstore : w.store = s) (hq : Q a) :
      Agrees Q s staged (.ok a, w) (.ok a, w.view staged)
  | refused {r r' : Outcome Error α × TypedWorld V} (h : ∀ a, r.1 ≠ .ok a) (h' : ∀ a, r'.1 ≠ .ok a) :
      Agrees Q s staged r r'

theorem Refuses.run_ne_ok [DecidableEq V] {p : Engine V α} (hp : p.Refuses) (w : TypedWorld V)
    (a : α) : (p.runTyped w).1 ≠ .ok a := by
  obtain ⟨e, rfl⟩ := hp
  exact fun h => nomatch h

end Engine

theorem head_of_pendingAt [Headed V] {τ : Id → Nat} {staged : List (Write V)}
    (h : ∀ x ∈ staged, x.Typed τ) {id : Id} {value : V}
    (hpend : pendingAt id staged = some (some value)) :
    Headed.structHash value = some (τ id) := by
  induction staged with
  | nil => cases hpend
  | cons x staged ih =>
    have ih := ih fun y hy => h y (List.mem_cons_of_mem _ hy)
    have hx := h x List.mem_cons_self
    rw [pendingAt] at hpend
    cases hrest : pendingAt id staged with
    | some slot =>
      rw [hrest, Option.some_or] at hpend
      exact ih (hrest.trans hpend)
    | none =>
      rw [hrest, Option.none_or] at hpend
      cases x with
      | put i bytes =>
        simp only [Write.pendingAt, Option.ite_none_right_eq_some, Option.some.injEq] at hpend
        obtain ⟨rfl, rfl⟩ := hpend
        exact hx
      | remove hash i => simp [Write.pendingAt] at hpend
      | expect hash i bytes => cases hpend

namespace Engine

variable [Headed V] [DecidableEq V] {τ : Id → Nat}

theorem Careful.run_store {Q : α → Prop} {p : Engine V α} (hp : p.Careful Q) (w : TypedWorld V) :
    (p.runTyped w).2.store = w.store := by
  induction p generalizing w with
  | pure a => rfl
  | fail e => rfl
  | stuck => rfl
  | ask o k ih =>
    cases o with
    | getOf hash id => exact ih _ (hp.2.2 _) w
    | apply batch => exact absurd hp not_false
    | keyNanos => exact ih _ (hp _) w.tick
    | mintInstant floor => exact ih _ (hp _) (TypedWorld.handle (.mintInstant floor) w).2

theorem Careful.agrees {Q : α → Prop} {p : Engine V α} (hp : p.Careful Q) {w : TypedWorld V}
    {staged : List (Write V)} (hs : w.store.Keeps τ) (hstaged : ∀ x ∈ staged, w.store.Lands τ x) :
    Agrees Q w.store staged ((p.onView staged).runTyped w) (p.runTyped (w.view staged)) := by
  induction p generalizing w with
  | pure a => exact .ok a w rfl hp
  | fail e => exact .refused (fun _ h => nomatch h) fun _ h => nomatch h
  | stuck => exact .refused (fun _ h => nomatch h) fun _ h => nomatch h
  | ask o k ih =>
    cases o with
    | apply batch => exact absurd hp not_false
    | keyNanos => exact ih _ (hp _) (w := w.tick) hs hstaged
    | mintInstant floor =>
      exact ih _ (hp _) (w := (TypedWorld.handle (.mintInstant floor) w).2) hs hstaged
    | getOf hash id =>
      obtain ⟨hnone, hother, hk⟩ := hp
      have hread := TypedStore.readOf_commitToCaches hstaged hash id
      have hstep : runTyped (Prog.ask (.getOf hash id) k) (w.view staged) =
          runTyped (k ((w.store.commitToCaches staged).readOf hash id)) (w.view staged) := rfl
      rw [hstep, Engine.onView]
      cases hpend : pendingAt id staged with
      | none =>
        rw [hpend, Option.getD_none, ite_self] at hread
        rw [hread]
        exact ih _ (hk _) hs hstaged
      | some slot =>
        rw [hpend, Option.getD_some] at hread
        by_cases hτ : hash = τ id
        · rw [if_pos hτ] at hread
          rw [hread]
          exact ih _ (hk _) hs hstaged
        · -- The store has nothing under this type. What the view shows
          -- is of the id's own type, so the program refuses it too.
          rw [if_neg hτ, hs hash id hτ] at hread
          rw [hread]
          refine .refused (Refuses.run_ne_ok ?_ w) (hnone.run_ne_ok _)
          cases slot with
          | none => exact hnone.onView staged
          | some value =>
            have hhead := head_of_pendingAt (fun x hx => (hstaged x hx).1) hpend
            refine (hother value fun heq => hτ ?_).onView staged
            rw [hhead] at heq
            exact (Option.some.inj heq).symm

theorem runTyped_bind_eq_ok {p : Engine V α} {f : α → Engine V β} {w w' : TypedWorld V} {b : β} :
    (p >>= f).runTyped w = (.ok b, w') ↔
      ∃ a w₁, p.runTyped w = (.ok a, w₁) ∧ (f a).runTyped w₁ = (.ok b, w') := Prog.run_bind_eq_ok

theorem runTyped_apply_eq_ok {batch : List (Write V)} {w w' : TypedWorld V} :
    (Engine.apply batch).runTyped w = (.ok (), w') ↔
      ∃ s, w.store.apply batch = .ok s ∧ w' = { w with store := s } := by
  have hrun : (Engine.apply batch).runTyped w =
      runTyped (Prog.ofExcept (TypedWorld.handle (.apply batch) w).1)
        (TypedWorld.handle (.apply batch) w).2 := rfl
  rw [hrun, TypedWorld.handle]
  cases w.store.apply batch with
  | ok s =>
    change (Outcome.ok (), { w with store := s }) = _ ↔ _
    simp [eq_comm]
  | error e =>
    change (Outcome.error e, w) = _ ↔ _
    simp

end Engine

end WaveDb.Core
