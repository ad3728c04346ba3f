import WaveDb.Core.Metadata

-- Minting: the clock fused with a process counter.
namespace WaveDb.Core

open WaveDb.Lib

inductive Shape
  | unique
  | nonUnique
  deriving DecidableEq, Repr

-- The flag bit of live anchors. Archives take the flipped one.
def Shape.anchorFlag : Shape → Bool
  | .unique => true
  | .nonUnique => false

def archiveId (hash : Nat) (shape : Shape) (instant tenant : Nat) : Id :=
  Id.new instant tenant (!shape.anchorFlag) (typeSalt hash)

def mintFlooredId {V : Type} (tenant hash floor : Nat) : Engine V Id := do
  let instant ← Engine.mintInstant floor
  return Id.new instant tenant false (typeSalt hash)

def keyedId (tenant hash key : Nat) : Id := Id.new key tenant false (typeSalt hash)

def uniqueAnchor (tenant hash : Nat) : Id := Id.new hash tenant true 0

theorem Id.new_flag (key tenant salt : Nat) (flag : Bool) :
    (LocalId.ofId (Id.new key tenant flag salt)).flag = flag := by
  have hsalt : salt % 2 ^ 15 < 2 ^ 15 := Nat.mod_lt _ (by decide)
  cases flag
  · simp only [Id.new, LocalId.ofId_toId, LocalId.new, LocalId.flag, Bool.false_eq_true, if_false,
      Nat.zero_add]
    rw [Nat.div_eq_of_lt hsalt]
    rfl
  · simp only [Id.new, LocalId.ofId_toId, LocalId.new, LocalId.flag, if_true]
    rw [Nat.add_div_left _ (by decide), Nat.div_eq_of_lt hsalt]
    rfl

theorem archiveId_flag (hash : Nat) (shape : Shape) (instant tenant : Nat) :
    (LocalId.ofId (archiveId hash shape instant tenant)).flag = !shape.anchorFlag :=
  Id.new_flag ..

theorem archiveId_inj {hash tenant a b : Nat} {shape : Shape} :
    archiveId hash shape a tenant = archiveId hash shape b tenant ↔ a = b := by
  constructor
  · exact fun h => congrArg Id.key h
  · rintro rfl
    rfl

namespace World

variable {V : Type}

def holding (w : World V) (store : Store V) : World V := { w with store }

@[simp] theorem holding_store (w : World V) (store : Store V) :
    (w.holding store).store = store := rfl

@[simp] theorem holding_last (w : World V) (store : Store V) :
    (w.holding store).last = w.last := rfl

def minted (w : World V) (floor : Nat) : Nat :=
  max (w.clock 0) (max (saturatingSucc floor) (saturatingSucc w.last))

def mint (w : World V) (floor : Nat) : World V := { w.tick with last := w.minted floor }

@[simp] theorem mint_store (w : World V) (floor : Nat) : (w.mint floor).store = w.store := rfl

@[simp] theorem mint_last (w : World V) (floor : Nat) :
    (w.mint floor).last = w.minted floor := rfl

theorem floor_lt_minted {w : World V} {floor : Nat} (h : floor < 2 ^ 64 - 1) :
    floor < w.minted floor := by
  have hsucc : floor < saturatingSucc floor := by simp only [saturatingSucc]; omega
  exact hsucc.trans_le ((le_max_left _ _).trans (le_max_right _ _))

theorem floor_lt_of_minted {w : World V} {floor : Nat} (h : w.minted floor < 2 ^ 64 - 1) :
    floor < w.minted floor := by
  have hsucc : saturatingSucc floor ≤ w.minted floor := (le_max_left _ _).trans (le_max_right _ _)
  simp only [saturatingSucc] at hsucc
  omega

end World

theorem Engine.runIn_bind_error {V α β : Type} [DecidableEq V] {p : Engine V α}
    {f : α → Engine V β} {w w' : World V} {e : Error} (h : p.runIn w = (.error e, w')) :
    (p >>= f).runIn w = (.error e, w') := by
  rw [Engine.runIn] at h
  rw [Engine.runIn, Prog.run_bind, h]

theorem Engine.runIn_apply {V : Type} [DecidableEq V] {batch : List (Write V)} {w : World V}
    (h : w.store.conflict batch = none) :
    (apply batch : Engine V Unit).runIn w = (.ok (), w.holding (w.store.writes batch)) := by
  simp only [Engine.apply, Engine.runIn, Prog.run, World.handle, Store.apply, h]
  rfl

@[simp] theorem Engine.runIn_mintInstant {V : Type} [DecidableEq V] (floor : Nat) (w : World V) :
    (mintInstant floor : Engine V Nat).runIn w = (.ok (w.minted floor), w.mint floor) := rfl

end WaveDb.Core
