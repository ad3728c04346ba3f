import Mathlib

-- Streams that are polled, and what a consumer that polls to the end gets.
namespace WaveDb.Lib

inductive Poll (α : Type)
  | pending
  | ready (value : α)

-- A stream as the answers it will give. Behind them it has ended.
inductive Tick (ι : Type)
  | pending
  | item (x : ι)

variable {ι σ : Type}

def items : List (Tick ι) → List ι
  | [] => []
  | .pending :: s => items s
  | .item x :: s => x :: items s

-- What polling again and again hands out until `ready none` ends the stream.
inductive Yields (poll : σ → Poll (Option ι) × σ) : σ → List ι → Prop
  | done {st st' : σ} : poll st = (.ready none, st') → Yields poll st []
  | item {st st' : σ} {x : ι} {xs : List ι} :
      poll st = (.ready (some x), st') → Yields poll st' xs → Yields poll st (x :: xs)
  | pending {st st' : σ} {xs : List ι} :
      poll st = (.pending, st') → Yields poll st' xs → Yields poll st xs

variable {poll : σ → Poll (Option ι) × σ} {st : σ} {xs ys : List ι}

theorem Yields.unique (h : Yields poll st xs) (h' : Yields poll st ys) : xs = ys := by
  induction h generalizing ys with
  | done hpoll =>
    cases h' with
    | done _ => rfl
    | item hpoll' _ => cases hpoll.symm.trans hpoll'
    | pending hpoll' _ => cases hpoll.symm.trans hpoll'
  | item hpoll _ ih =>
    cases h' with
    | done hpoll' => cases hpoll.symm.trans hpoll'
    | item hpoll' hrest =>
      cases hpoll.symm.trans hpoll'
      rw [ih hrest]
    | pending hpoll' _ => cases hpoll.symm.trans hpoll'
  | pending hpoll _ ih =>
    cases h' with
    | done hpoll' => cases hpoll.symm.trans hpoll'
    | item hpoll' _ => cases hpoll.symm.trans hpoll'
    | pending hpoll' hrest =>
      cases hpoll.symm.trans hpoll'
      exact ih hrest

theorem Yields.congr {st' : σ} (hpoll : poll st = poll st') (h : Yields poll st' xs) :
    Yields poll st xs := by
  cases h with
  | done h => exact .done (hpoll.trans h)
  | item h hrest => exact .item (hpoll.trans h) hrest
  | pending h hrest => exact .pending (hpoll.trans h) hrest

end WaveDb.Lib
