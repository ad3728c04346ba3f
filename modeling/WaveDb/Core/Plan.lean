import WaveDb.Core.Store
import WaveDb.Lib.Cells

-- A plan reads the store and returns the writes that carry a structure from its old
-- cells to new ones.
namespace WaveDb.Core

open WaveDb.Lib

variable {V : Type}

namespace World

def advance (w : World V) (k : Nat) : World V := { w with clock := fun n => w.clock (n + k) }

@[simp] theorem advance_zero (w : World V) : w.advance 0 = w := rfl

@[simp] theorem clock_advance (w : World V) (k n : Nat) :
    (w.advance k).clock n = w.clock (n + k) := rfl

@[simp] theorem store_advance (w : World V) (k : Nat) : (w.advance k).store = w.store := rfl

theorem tick_advance (w : World V) (k : Nat) : (w.advance k).tick = w.advance (k + 1) := by
  simp only [advance, tick]
  congr 1
  funext n
  congr 1
  omega

theorem advance_advance (w : World V) (k m : Nat) :
    (w.advance k).advance m = w.advance (k + m) := by
  simp only [advance]
  congr 1
  funext n
  congr 1
  omega

end World

-- The clock gives each reading once, and no id it can still give is in use.
-- `kinds` are the lower half-words of the ids a structure mints.
structure Unused (tenant : Nat) (kinds : List Nat) (w : World V) : Prop where
  injective : Function.Injective w.clock
  unused : ∀ n, ∀ lower ∈ kinds, w.store ⟨w.clock n, tenant, lower⟩ = none

-- The id was given by the clock between `w` and `w'` and was not in use before.
def Given (tenant : Nat) (kinds : List Nat) (w w' : World V) (i : Id) : Prop :=
  w.store i = none ∧ ∃ k n, w' = w.advance k ∧ n < k ∧
    ∃ lower ∈ kinds, i = ⟨w.clock n, tenant, lower⟩

-- The batch carries the cells from `old` to `new`. What it writes is the
-- structure's own or an id the clock has given meanwhile.
structure Planned (tenant : Nat) (kinds : List Nat) (w w' : World V) (batch : List (Write V))
    (old new : List (Id × V)) : Prop where
  held : Holds w.store old
  replaces : Replaces w.store (w.store.writes batch) old new
  unguarded : ∀ x ∈ batch, x.isGuard = false
  nodup : (addrs new).Nodup
  advanced : ∃ k, w' = w.advance k
  fresh : ∀ i ∈ addrs new, i ∈ addrs old ∨ Given tenant kinds w w' i
  within : ∀ x ∈ batch, x.id ∈ addrs old ∨ Given tenant kinds w w' x.id

section Given

variable {tenant : Nat} {kinds : List Nat} {w w' w'' : World V} {i : Id}

theorem Given.advance (h : Given tenant kinds w w' i) (m : Nat) :
    Given tenant kinds w (w'.advance m) i := by
  obtain ⟨hnone, k, n, rfl, hn, hlower⟩ := h
  exact ⟨hnone, k + m, n, w.advance_advance k m, by omega, hlower⟩

theorem Given.ne_future (h : Given tenant kinds w w' i) (hu : Unused tenant kinds w) (n lower : Nat) :
    i ≠ ⟨w'.clock n, tenant, lower⟩ := by
  obtain ⟨-, k, m, rfl, hm, lower', -, rfl⟩ := h
  intro he
  have hkey := hu.injective (congrArg Id.key he : w.clock m = w.clock (n + k))
  omega

theorem Given.future (h : Given tenant kinds w w' i) :
    ∃ n, ∃ lower ∈ kinds, i = ⟨w.clock n, tenant, lower⟩ := by
  obtain ⟨-, -, n, -, -, hlower⟩ := h
  exact ⟨n, hlower⟩

theorem Given.after {store : Store V} (hstep : ∃ k, w' = w.advance k)
    (h : Given tenant kinds { w' with store := store } w'' i) (hnone : w.store i = none) :
    Given tenant kinds w { w'' with store := w.store } i := by
  obtain ⟨k, rfl⟩ := hstep
  obtain ⟨-, k', n, rfl, hn, lower, hl, rfl⟩ := h
  refine ⟨hnone, k + k', n + k, ?_, by omega, lower, hl, rfl⟩
  rw [← World.advance_advance]
  rfl

end Given

namespace Planned

variable {tenant : Nat} {kinds : List Nat} {w w' w'' : World V}
  {batch batch' : List (Write V)} {old new cells : List (Id × V)}

theorem refl (hh : Holds w.store cells) (hn : (addrs cells).Nodup) :
    Planned tenant kinds w w [] cells cells :=
  ⟨hh, .refl hh, by simp, hn, ⟨0, rfl⟩, fun _ hi => .inl hi, by simp⟩

theorem perm (h : Planned tenant kinds w w' batch old new) (hp : new.Perm cells) :
    Planned tenant kinds w w' batch old cells :=
  ⟨h.held, h.replaces.perm hp, h.unguarded, (addrs_perm hp).nodup_iff.mp h.nodup, h.advanced,
    fun i hi => h.fresh i ((addrs_perm hp).mem_iff.mpr hi), h.within⟩

theorem applies [DecidableEq V] (h : Planned tenant kinds w w' batch old new) :
    w.store.apply batch = .ok (w.store.writes batch) := by
  rw [Store.apply, Store.conflict_eq_none h.unguarded]

theorem store_eq (h : Planned tenant kinds w w' batch old new) : w'.store = w.store := by
  obtain ⟨k, rfl⟩ := h.advanced
  rfl

theorem snoc {x : Write V} {P : Write V → Prop} (h : ∀ y ∈ batch, P y) (hx : P x) :
    ∀ y ∈ batch ++ [x], P y := by
  intro y hy
  rcases List.mem_append.mp hy with hy | hy
  · exact h y hy
  · rwa [List.mem_singleton.mp hy]

theorem future (h : Planned tenant kinds w w' batch old new) (hu : Unused tenant kinds w) (n : Nat)
    {lower : Nat} (hl : lower ∈ kinds) :
    w.store ⟨w'.clock n, tenant, lower⟩ = none ∧
      (⟨w'.clock n, tenant, lower⟩ : Id) ∉ addrs new := by
  have hnone : w.store ⟨w'.clock n, tenant, lower⟩ = none := by
    obtain ⟨k, rfl⟩ := h.advanced
    exact hu.unused (n + k) lower hl
  refine ⟨hnone, fun hi => ?_⟩
  rcases h.fresh _ hi with ho | hgiven
  · exact h.held.not_mem hnone ho
  · exact hgiven.ne_future hu n lower rfl

theorem put {i : Id} {v : V} (u : V)
    (h : Planned tenant kinds w w' batch old ((i, v) :: cells)) :
    Planned tenant kinds w w' (batch ++ [.put i u]) old ((i, u) :: cells) := by
  have hn := List.nodup_cons.mp h.nodup
  refine ⟨h.held, ?_, snoc h.unguarded rfl, h.nodup, h.advanced, h.fresh,
    snoc h.within (h.fresh i List.mem_cons_self)⟩
  rw [Store.writes_append]
  exact h.replaces.put hn.1

theorem add {i : Id} (v : V) (h : Planned tenant kinds w w' batch old cells)
    (hi : i ∉ addrs cells) (hgiven : Given tenant kinds w w' i) :
    Planned tenant kinds w w' (batch ++ [.put i v]) old ((i, v) :: cells) := by
  refine ⟨h.held, ?_, snoc h.unguarded rfl, List.nodup_cons.mpr ⟨hi, h.nodup⟩, h.advanced,
    fun j hj => ?_, snoc h.within (.inr hgiven)⟩
  · rw [Store.writes_append]
    exact h.replaces.add hi
  · rcases List.mem_cons.mp hj with rfl | hj
    · exact .inr hgiven
    · exact h.fresh j hj

theorem tick (h : Planned tenant kinds w w' batch old cells) :
    Planned tenant kinds w w'.tick batch old cells := by
  refine ⟨h.held, h.replaces, h.unguarded, h.nodup, ?_,
    fun i hi => (h.fresh i hi).imp_right fun hf => hf.advance 1,
    fun x hx => (h.within x hx).imp_right fun hf => hf.advance 1⟩
  obtain ⟨k, rfl⟩ := h.advanced
  exact ⟨k + 1, w.tick_advance k⟩

theorem minted {lower : Nat} (h : Planned tenant kinds w w' batch old cells)
    (hu : Unused tenant kinds w) (hl : lower ∈ kinds) :
    (⟨w'.clock 0, tenant, lower⟩ : Id) ∉ addrs cells ∧
      Given tenant kinds w w'.tick ⟨w'.clock 0, tenant, lower⟩ := by
  obtain ⟨hnone, hnew⟩ := h.future hu 0 hl
  refine ⟨hnew, hnone, ?_⟩
  obtain ⟨k, rfl⟩ := h.advanced
  exact ⟨k + 1, k, w.tick_advance k, by omega, lower, hl, by simp⟩

theorem mint {lower : Nat} (v : V) (h : Planned tenant kinds w w' batch old cells)
    (hu : Unused tenant kinds w) (hl : lower ∈ kinds) :
    Planned tenant kinds w w'.tick (batch ++ [.put ⟨w'.clock 0, tenant, lower⟩ v]) old
      ((⟨w'.clock 0, tenant, lower⟩, v) :: cells) := by
  obtain ⟨hnew, hgiven⟩ := h.minted hu hl
  exact h.tick.add v hnew hgiven

theorem free {i : Id} {v : V} (hash : Nat)
    (h : Planned tenant kinds w w' batch old ((i, v) :: cells)) :
    Planned tenant kinds w w' (batch ++ [.remove hash i]) old cells := by
  have hn := List.nodup_cons.mp h.nodup
  have hfresh := h.fresh i List.mem_cons_self
  refine ⟨h.held, ?_, snoc h.unguarded rfl, hn.2, h.advanced,
    fun j hj => h.fresh j (List.mem_cons_of_mem _ hj), snoc h.within hfresh⟩
  rw [Store.writes_append]
  exact h.replaces.free (hfresh.imp_right And.left) hn.1

theorem part {mine mine' rest : List (Id × V)}
    (h : Planned tenant kinds w w' batch old (mine ++ rest))
    (h' : Planned tenant kinds { w' with store := w.store.writes batch } w'' batch' mine mine') :
    Planned tenant kinds w { w'' with store := w.store } (batch ++ batch') old (mine' ++ rest) := by
  have hnodup := List.nodup_append'.mp (addrs_append mine rest ▸ h.nodup)
  have hrest : ∀ i ∈ addrs rest, i ∉ addrs mine ∧ i ∉ addrs mine' := by
    intro i hi
    have hsome : i ∉ addrs mine := fun hs => hnodup.2.2 hs hi
    refine ⟨hsome, fun hs' => ?_⟩
    rcases h'.fresh i hs' with hs | hgiven
    · exact hsome hs
    · exact (holds_append.mp h.replaces.holds).2.not_mem hgiven.1 hi
  obtain ⟨k', hk'⟩ := h'.advanced
  have hworld : { w'' with store := w.store } = w'.advance k' := by
    rw [hk']
    simp only [World.advance, h.store_eq]
  -- What the first plan had is carried along, and what the second one was
  -- given was not in use at the start either.
  have hback : ∀ i, i ∈ addrs old ∨ Given tenant kinds w w' i →
      i ∈ addrs old ∨ Given tenant kinds w { w'' with store := w.store } i := by
    intro i hi
    rw [hworld]
    exact hi.imp_right fun hgiven => hgiven.advance k'
  have hforth : ∀ i, i ∈ addrs mine ∨
        Given tenant kinds { w' with store := w.store.writes batch } w'' i →
      i ∈ addrs old ∨ Given tenant kinds w { w'' with store := w.store } i := by
    intro i hi
    rcases hi with hs | hgiven
    · exact hback i (h.fresh i (by simp [hs]))
    · by_cases ho : i ∈ addrs old
      · exact .inl ho
      · refine .inr (hgiven.after h.advanced ?_)
        rw [← h.replaces.kept i ho (h.replaces.holds.not_mem hgiven.1)]
        exact hgiven.1
  refine ⟨h.held, ?_, ?_, ?_, ?_, ?_, ?_⟩
  · rw [Store.writes_append]
    exact h.replaces.part h'.replaces hrest fun i hi => (h.fresh i (by simp [hi])).imp_right And.left
  · intro x hx
    exact (List.mem_append.mp hx).elim (h.unguarded x) (h'.unguarded x)
  · rw [addrs_append]
    exact List.nodup_append'.mpr ⟨h'.nodup, hnodup.2.1, fun i hs' hi => (hrest i hi).2 hs'⟩
  · obtain ⟨k, rfl⟩ := h.advanced
    exact ⟨k + k', by rw [hworld, World.advance_advance]⟩
  · intro i hi
    rw [addrs_append, List.mem_append] at hi
    rcases hi with hs' | hr
    · exact hforth i (h'.fresh i hs')
    · exact hback i (h.fresh i (by simp [hr]))
  · intro x hx
    exact (List.mem_append.mp hx).elim (fun hx => hback _ (h.within x hx))
      fun hx => hforth _ (h'.within x hx)

theorem unused (h : Planned tenant kinds w w' batch old new) (hu : Unused tenant kinds w) :
    Unused tenant kinds { w' with store := w.store.writes batch } := by
  constructor
  · obtain ⟨k, rfl⟩ := h.advanced
    intro a b hab
    have := hu.injective hab
    omega
  · intro n lower hl
    obtain ⟨hnone, hnew⟩ := h.future hu n hl
    rw [← hnone]
    exact h.replaces.kept _ (h.held.not_mem hnone) hnew

end Planned

end WaveDb.Core
