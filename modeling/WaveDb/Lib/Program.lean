import Mathlib

namespace WaveDb.Lib

-- A program that asks its environment for answers. `stuck` is a loop that ran
-- out of fuel.
inductive Prog (Op : Type) (Ans : Op → Type) (ε α : Type) : Type
  | pure (a : α)
  | fail (e : ε)
  | stuck
  | ask (o : Op) (k : Ans o → Prog Op Ans ε α)

inductive Outcome (ε α : Type)
  | ok (a : α)
  | error (e : ε)
  | stuck
  deriving DecidableEq

namespace Prog

variable {Op : Type} {Ans : Op → Type} {ε α β σ : Type}

def bind : Prog Op Ans ε α → (α → Prog Op Ans ε β) → Prog Op Ans ε β
  | .pure a, f => f a
  | .fail e, _ => .fail e
  | .stuck, _ => .stuck
  | .ask o k, f => .ask o fun answer => (k answer).bind f

instance : Monad (Prog Op Ans ε) where
  pure := Prog.pure
  bind := Prog.bind

theorem bind_pure_self (p : Prog Op Ans ε α) : p.bind Prog.pure = p := by
  induction p with
  | pure a => rfl
  | fail e => rfl
  | stuck => rfl
  | ask o k ih => exact congrArg (Prog.ask o) (funext ih)

theorem bind_bind {γ : Type} (p : Prog Op Ans ε α) (f : α → Prog Op Ans ε β)
    (g : β → Prog Op Ans ε γ) : (p.bind f).bind g = p.bind fun a => (f a).bind g := by
  induction p with
  | pure a => rfl
  | fail e => rfl
  | stuck => rfl
  | ask o k ih => exact congrArg (Prog.ask o) (funext ih)

instance : LawfulMonad (Prog Op Ans ε) :=
  LawfulMonad.mk' _ bind_pure_self (fun _ _ => rfl) bind_bind

def perform (o : Op) : Prog Op Ans ε (Ans o) := .ask o .pure

def ofExcept : Except ε α → Prog Op Ans ε α
  | .ok a => .pure a
  | .error e => .fail e

-- Whatever the answers, the program only asks what `P` allows.
def Asks (P : Op → Prop) : Prog Op Ans ε α → Prop
  | .pure _ => True
  | .fail _ => True
  | .stuck => True
  | .ask o k => P o ∧ ∀ answer, (k answer).Asks P

theorem Asks.bind {P : Op → Prop} {p : Prog Op Ans ε α} {f : α → Prog Op Ans ε β}
    (hp : p.Asks P) (hf : ∀ a, (f a).Asks P) : (p >>= f).Asks P := by
  change (p.bind f).Asks P
  induction p with
  | pure a => exact hf a
  | fail e => trivial
  | stuck => trivial
  | ask o k ih => exact ⟨hp.1, fun answer => ih answer (hp.2 answer)⟩

theorem asks_perform {P : Op → Prop} {o : Op} (h : P o) :
    (perform o : Prog Op Ans ε (Ans o)).Asks P := ⟨h, fun _ => trivial⟩

theorem asks_ofExcept {P : Op → Prop} (e : Except ε α) :
    (ofExcept e : Prog Op Ans ε α).Asks P := by
  cases e <;> trivial

def run (handle : (o : Op) → σ → Ans o × σ) : Prog Op Ans ε α → σ → Outcome ε α × σ
  | .pure a, s => (.ok a, s)
  | .fail e, s => (.error e, s)
  | .stuck, s => (.stuck, s)
  | .ask o k, s => (k (handle o s).1).run handle (handle o s).2

variable {handle : (o : Op) → σ → Ans o × σ}

@[simp] theorem run_pure (a : α) (s : σ) :
    (Pure.pure a : Prog Op Ans ε α).run handle s = (.ok a, s) := rfl

@[simp] theorem run_fail (e : ε) (s : σ) :
    (Prog.fail e : Prog Op Ans ε α).run handle s = (.error e, s) := rfl

@[simp] theorem run_stuck (s : σ) :
    (Prog.stuck : Prog Op Ans ε α).run handle s = (.stuck, s) := rfl

@[simp] theorem run_perform (o : Op) (s : σ) :
    (perform o : Prog Op Ans ε (Ans o)).run handle s = (.ok (handle o s).1, (handle o s).2) := rfl

theorem run_bind (p : Prog Op Ans ε α) (f : α → Prog Op Ans ε β) (s : σ) :
    (p >>= f).run handle s = match p.run handle s with
      | (.ok a, s') => (f a).run handle s'
      | (.error e, s') => (.error e, s')
      | (.stuck, s') => (.stuck, s') := by
  change (p.bind f).run handle s = _
  induction p generalizing s with
  | pure a => rfl
  | fail e => rfl
  | stuck => rfl
  | ask o k ih => exact ih _ _

theorem run_bind_ok {p : Prog Op Ans ε α} {f : α → Prog Op Ans ε β} {s s' : σ} {a : α}
    (h : p.run handle s = (.ok a, s')) : (p >>= f).run handle s = (f a).run handle s' := by
  rw [run_bind, h]

theorem run_bind_eq_ok {p : Prog Op Ans ε α} {f : α → Prog Op Ans ε β} {s s' : σ} {b : β} :
    (p >>= f).run handle s = (.ok b, s') ↔
      ∃ a s₁, p.run handle s = (.ok a, s₁) ∧ (f a).run handle s₁ = (.ok b, s') := by
  rw [run_bind]
  obtain ⟨outcome, s₁⟩ := p.run handle s
  cases outcome with
  | ok a => simp
  | error e => simp
  | stuck => simp

theorem Asks.run_state {P : Op → Prop} (hkeeps : ∀ o s, P o → (handle o s).2 = s) {p : Prog Op Ans ε α}
    (hp : p.Asks P) (s : σ) : (p.run handle s).2 = s := by
  induction p generalizing s with
  | pure a => rfl
  | fail e => rfl
  | stuck => rfl
  | ask o k ih =>
    rw [run, hkeeps o s hp.1]
    exact ih _ (hp.2 _) s

end Prog

end WaveDb.Lib
