import Mathlib

-- Programs that change a state and may fail. The state a failed program leaves
-- behind is kept.
namespace WaveDb.Lib

theorem bind_eq_ok {ε α β : Type} {r : Except ε α} {g : α → Except ε β} {b : β} :
    (r >>= g) = .ok b ↔ ∃ a, r = .ok a ∧ g a = .ok b := by
  cases r with
  | ok a => exact ⟨fun h => ⟨a, rfl, h⟩, fun ⟨_, ha, h⟩ => Except.ok.inj ha ▸ h⟩
  | error e => exact ⟨nofun, fun ⟨_, ha, _⟩ => nomatch ha⟩

def Act (W ε α : Type) : Type := W → Except ε α × W

namespace Act

variable {W ε α β : Type}

protected def pure (a : α) : Act W ε α := fun w => (.ok a, w)

protected def bind (p : Act W ε α) (f : α → Act W ε β) : Act W ε β := fun w =>
  match p w with
  | (.ok a, w') => f a w'
  | (.error e, w') => (.error e, w')

instance : Monad (Act W ε) where
  pure := Act.pure
  bind := Act.bind

def fail (e : ε) : Act W ε α := fun w => (.error e, w)

def read (f : W → α) : Act W ε α := fun w => (.ok (f w), w)

def modify (f : W → W) : Act W ε Unit := fun w => (.ok (), f w)

def lift (r : Except ε α) : Act W ε α := fun w => (r, w)

-- On failure `handler` tidies the state, and the failure goes on.
def onError (p : Act W ε α) (handler : W → W) : Act W ε α := fun w =>
  match p w with
  | (.ok a, w') => (.ok a, w')
  | (.error e, w') => (.error e, handler w')

def each (f : α → Act W ε Unit) : List α → Act W ε Unit
  | [] => pure ()
  | a :: as => do
      f a
      each f as

def collect (f : α → Act W ε β) : List α → Act W ε (List β)
  | [] => pure []
  | a :: as => do
      let b ← f a
      let bs ← collect f as
      return b :: bs

-- From `w` the program ends well in `ok`, or fails in `err`.
def Meets (p : Act W ε α) (w : W) (ok : α → W → Prop) (err : ε → W → Prop) : Prop :=
  match p w with
  | (.ok a, w') => ok a w'
  | (.error e, w') => err e w'

section Rules

variable {p : Act W ε α} {w : W} {ok ok' : α → W → Prop} {err err' : ε → W → Prop}
  {f : α → Act W ε β} {post : β → W → Prop}

theorem Meets.mono (h : p.Meets w ok err) (hok : ∀ a w', ok a w' → ok' a w')
    (herr : ∀ e w', err e w' → err' e w') : p.Meets w ok' err' := by
  unfold Meets at *
  split
  · rename_i a w' heq
    rw [heq] at h
    exact hok a w' h
  · rename_i e w' heq
    rw [heq] at h
    exact herr e w' h

theorem Meets.ok_of_eq (h : p.Meets w ok err) {a : α} {w' : W} (heq : p w = (.ok a, w')) :
    ok a w' := by
  unfold Meets at h
  rwa [heq] at h

theorem Meets.err_of_eq (h : p.Meets w ok err) {e : ε} {w' : W} (heq : p w = (.error e, w')) :
    err e w' := by
  unfold Meets at h
  rwa [heq] at h

theorem Meets.pure {a : α} (h : ok a w) :
    Meets (Pure.pure a : Act W ε α) w ok err := h

theorem Meets.bind (h : p.Meets w (fun a w' => (f a).Meets w' post err) err) :
    (p >>= f).Meets w post err := by
  change Meets (Act.bind p f) w post err
  unfold Meets Act.bind at *
  cases hp : p w with
  | mk r w' =>
    rw [hp] at h
    cases r with
    | ok a => exact h
    | error e => exact h

-- The rule used forwards: what the first part ends in is all the second needs.
theorem Meets.then (h : p.Meets w ok err) (hf : ∀ a w', ok a w' → (f a).Meets w' post err) :
    (p >>= f).Meets w post err :=
  (h.mono hf fun _ _ he => he).bind

theorem Meets.fail {e : ε} (h : err e w) : (Act.fail e : Act W ε α).Meets w ok err := h

theorem Meets.read {g : W → α} (h : ok (g w) w) : (Act.read g : Act W ε α).Meets w ok err := h

theorem Meets.modify {g : W → W} {ok : Unit → W → Prop} (h : ok () (g w)) :
    (Act.modify g : Act W ε Unit).Meets w ok err := h

theorem Meets.lift {r : Except ε α} (hok : ∀ a, r = .ok a → ok a w)
    (herr : ∀ e, r = .error e → err e w) : (Act.lift r).Meets w ok err := by
  unfold Meets Act.lift
  cases r with
  | ok a => exact hok a rfl
  | error e => exact herr e rfl

theorem Meets.onError {handler : W → W} (h : p.Meets w ok fun e w' => err e (handler w')) :
    (p.onError handler).Meets w ok err := by
  unfold Meets Act.onError at *
  cases hp : p w with
  | mk r w' =>
    rw [hp] at h
    cases r with
    | ok a => exact h
    | error e => exact h

end Rules

end Act

end WaveDb.Lib
