import WaveDb.Lib.Program
import Mathlib

namespace WaveDb.Core

open WaveDb.Lib

-- An id without its tenant: a `u64` key over a flag bit and 15 salt bits.
structure LocalId where
  key : Nat
  lower : Nat
  deriving DecidableEq, Repr

-- The 128-bit id, with the tenant between the key and the lower half-word.
structure Id where
  key : Nat
  tenant : Nat
  lower : Nat
  deriving DecidableEq, Repr

namespace LocalId

def new (key : Nat) (flag : Bool) (salt : Nat) : LocalId :=
  ⟨key, (if flag then 2 ^ 15 else 0) + salt % 2 ^ 15⟩

def flag (l : LocalId) : Bool := l.lower / 2 ^ 15 % 2 == 1

def salt (l : LocalId) : Nat := l.lower % 2 ^ 15

def toId (l : LocalId) (tenant : Nat) : Id := ⟨l.key, tenant, l.lower⟩

def ofId (id : Id) : LocalId := ⟨id.key, id.lower⟩

def asPair (l : LocalId) : Nat ×ₗ Nat := toLex (l.key, l.lower)

theorem asPair_injective : Function.Injective asPair := by
  rintro ⟨k, l⟩ ⟨k', l'⟩ h
  have h := congrArg ofLex h
  simp only [asPair, ofLex_toLex, Prod.mk.injEq] at h
  simp [h]

instance : LinearOrder LocalId := LinearOrder.lift' asPair asPair_injective

@[simp] theorem ofId_toId (l : LocalId) (tenant : Nat) : ofId (l.toId tenant) = l := rfl

@[simp] theorem tenant_toId (l : LocalId) (tenant : Nat) : (l.toId tenant).tenant = tenant := rfl

theorem toId_inj {l m : LocalId} {tenant : Nat} : l.toId tenant = m.toId tenant ↔ l = m := by
  constructor
  · intro h
    rw [← ofId_toId l tenant, h, ofId_toId]
  · rintro rfl
    rfl

end LocalId

def Id.new (key tenant : Nat) (flag : Bool) (salt : Nat) : Id :=
  (LocalId.new key flag salt).toId tenant

-- The low 15 bits of a type's hash, stamped into every id of that type.
def typeSalt (hash : Nat) : Nat := hash % 2 ^ 15

inductive Error
  | wire
  | unknownStructHash (hash : Nat)
  | bpTreeNodeMissing (node : LocalId)
  | bpTreeNodeBadTag (tag : Nat)
  | laneBadTag (tag : Nat)
  | chainNodeMissing (node : LocalId)
  | pivotMissing (pivot : LocalId)
  | recordMissing (id : Id)
  | conflict (id : Id)
  | chainCorrupt (id : Id)
  | keyMismatch (id : Id)
  | secondaryIndexOutOfRange (index : Nat)
  | fuzzyOutOfRange (index : Nat)
  | listOutOfRange (index : Nat)
  | unauthorized
  | identityMismatch (user tenant : Nat)
  | backend
  deriving DecidableEq, Repr

variable {V : Type}

-- One write of an atomic batch. The stored value `V` stands for the bytes.
inductive Write (V : Type)
  | put (id : Id) (value : V)
  | remove (hash : Nat) (id : Id)
  | expect (hash : Nat) (id : Id) (value : Option V)

def Write.id : Write V → Id
  | .put id _ => id
  | .remove _ id => id
  | .expect _ id _ => id

def Write.isGuard : Write V → Bool
  | .expect _ _ _ => true
  | _ => false

-- Key to value over ids: one flat keyspace, as the `Store` contract has it.
abbrev Store (V : Type) := Id → Option V

namespace Store

def write (s : Store V) : Write V → Store V
  | .put id value => Function.update s id (some value)
  | .remove _ id => Function.update s id none
  | .expect _ _ _ => s

def writes (s : Store V) (batch : List (Write V)) : Store V := batch.foldl write s

def conflict [DecidableEq V] (s : Store V) : List (Write V) → Option Id
  | [] => none
  | .expect _ id value :: batch => if s id = value then s.conflict batch else some id
  | _ :: batch => s.conflict batch

def apply [DecidableEq V] (s : Store V) (batch : List (Write V)) : Except Error (Store V) :=
  match s.conflict batch with
  | some id => .error (.conflict id)
  | none => .ok (s.writes batch)

theorem conflict_eq_none [DecidableEq V] {s : Store V} {batch : List (Write V)}
    (h : ∀ w ∈ batch, w.isGuard = false) : s.conflict batch = none := by
  induction batch with
  | nil => rfl
  | cons w batch ih =>
    have hw := h w List.mem_cons_self
    have ih := ih fun x hx => h x (List.mem_cons_of_mem _ hx)
    cases w with
    | put id value => exact ih
    | remove hash id => exact ih
    | expect hash id value => cases hw

@[simp] theorem writes_nil (s : Store V) : s.writes [] = s := rfl

@[simp] theorem writes_cons (s : Store V) (w : Write V) (batch : List (Write V)) :
    s.writes (w :: batch) = (s.write w).writes batch := rfl

theorem writes_append (s : Store V) (a b : List (Write V)) :
    s.writes (a ++ b) = (s.writes a).writes b := List.foldl_append

@[simp] theorem write_put (s : Store V) (id : Id) (value : V) :
    s.write (.put id value) = Function.update s id (some value) := rfl

@[simp] theorem write_remove (s : Store V) (hash : Nat) (id : Id) :
    s.write (.remove hash id) = Function.update s id none := rfl

@[simp] theorem write_expect (s : Store V) (hash : Nat) (id : Id) (value : Option V) :
    s.write (.expect hash id value) = s := rfl

theorem writes_of_ne {s : Store V} {batch : List (Write V)} {i : Id}
    (h : ∀ x ∈ batch, x.id ≠ i) : s.writes batch i = s i := by
  induction batch generalizing s with
  | nil => rfl
  | cons x batch ih =>
    have hx := (h x List.mem_cons_self).symm
    rw [writes_cons, ih fun y hy => h y (List.mem_cons_of_mem _ hy)]
    cases x with
    | put id value => exact Function.update_of_ne hx _ _
    | remove hash id => exact Function.update_of_ne hx _ _
    | expect hash id value => rfl

end Store

-- What an operation asks: the store, and the two clocks ids and instants are minted
-- from.
inductive Op (V : Type)
  | getOf (hash : Nat) (id : Id)
  | apply (batch : List (Write V))
  | keyNanos
  | mintInstant (floor : Nat)

def Ans (V : Type) : Op V → Type
  | .getOf _ _ => Option V
  | .apply _ => Except Error Unit
  | .keyNanos => Nat
  | .mintInstant _ => Nat

def Op.IsRead : Op V → Prop
  | .getOf _ _ => True
  | _ => False

abbrev Engine (V α : Type) := Prog (Op V) (Ans V) Error α

namespace Engine

def getOf (hash : Nat) (id : Id) : Engine V (Option V) := Prog.perform (Op.getOf hash id)

def keyNanos : Engine V Nat := Prog.perform (Op.keyNanos)

def mintInstant (floor : Nat) : Engine V Nat := Prog.perform (Op.mintInstant floor)

def apply (batch : List (Write V)) : Engine V Unit :=
  .ask (.apply batch) Prog.ofExcept

end Engine

-- The surroundings of operations that run one after another: the store, the
-- clock readings still to come, and the watermark of `mint_instant`.
structure World (V : Type) where
  store : Store V
  clock : Nat → Nat
  last : Nat

def saturatingSucc (n : Nat) : Nat := min (n + 1) (2 ^ 64 - 1)

namespace World

variable [DecidableEq V]

def tick (w : World V) : World V := { w with clock := fun n => w.clock (n + 1) }

def handle : (o : Op V) → World V → Ans V o × World V
  | .getOf _ id, w => (w.store id, w)
  | .apply batch, w =>
    match w.store.apply batch with
    | .ok store => (.ok (), { w with store })
    | .error e => (.error e, w)
  | .keyNanos, w => (w.clock 0, w.tick)
  | .mintInstant floor, w =>
    let minted := max (w.clock 0) (max (saturatingSucc floor) (saturatingSucc w.last))
    (minted, { w.tick with last := minted })

end World

namespace Engine

variable [DecidableEq V] {α : Type}

def runIn (p : Engine V α) (w : World V) : Outcome Error α × World V := p.run World.handle w

@[simp] theorem runIn_pure (a : α) (w : World V) :
    (Pure.pure a : Engine V α).runIn w = (.ok a, w) := rfl

@[simp] theorem runIn_getOf (hash : Nat) (id : Id) (w : World V) :
    (getOf hash id).runIn w = (.ok (w.store id), w) := rfl

@[simp] theorem runIn_keyNanos (w : World V) :
    (keyNanos : Engine V Nat).runIn w = (.ok (w.clock 0), w.tick) := rfl

theorem runIn_reads {p : Engine V α} (hp : p.Asks Op.IsRead) (w : World V) : (p.runIn w).2 = w := by
  refine hp.run_state (fun o w h => ?_) w
  cases o with
  | getOf hash id => rfl
  | apply batch => exact h.elim
  | keyNanos => exact h.elim
  | mintInstant floor => exact h.elim

-- A loop returns `a` when any large enough fuel makes it do so.
def Returns (p : Nat → Engine V α) (w : World V) (a : α) (w' : World V) : Prop :=
  ∃ bound, ∀ fuel, bound < fuel → (p fuel).runIn w = (.ok a, w')

theorem Returns.unique {p : Nat → Engine V α} {w w₁ w₂ : World V} {a b : α}
    (h₁ : Returns p w a w₁) (h₂ : Returns p w b w₂) : a = b ∧ w₁ = w₂ := by
  obtain ⟨m, h₁⟩ := h₁
  obtain ⟨n, h₂⟩ := h₂
  have h := (h₁ (max m n + 1) (by omega)).symm.trans (h₂ (max m n + 1) (by omega))
  simpa using h

theorem runIn_bind_ok {β : Type} {p : Engine V α} {f : α → Engine V β} {w w' : World V} {a : α}
    (h : p.runIn w = (.ok a, w')) : (p >>= f).runIn w = (f a).runIn w' :=
  Prog.run_bind_ok h

theorem Returns.intro {p : Nat → Engine V α} {w w' : World V} {a : α} (bound : Nat)
    (h : ∀ fuel, bound < fuel → (p fuel).runIn w = (.ok a, w')) : Returns p w a w' := ⟨bound, h⟩

theorem Returns.of_run {p : Engine V α} {w w' : World V} {a : α} (h : p.runIn w = (.ok a, w')) :
    Returns (fun _ => p) w a w' := ⟨0, fun _ _ => h⟩

theorem Returns.bind {β : Type} {p : Nat → Engine V α} {f : Nat → α → Engine V β}
    {w w₁ w₂ : World V} {a : α} {b : β} (h : Returns p w a w₁)
    (hf : Returns (fun fuel => f fuel a) w₁ b w₂) :
    Returns (fun fuel => p fuel >>= f fuel) w b w₂ := by
  obtain ⟨m, h⟩ := h
  obtain ⟨n, hf⟩ := hf
  exact ⟨max m n, fun fuel hfuel => (runIn_bind_ok (h fuel (by omega))).trans (hf fuel (by omega))⟩

end Engine

end WaveDb.Core
