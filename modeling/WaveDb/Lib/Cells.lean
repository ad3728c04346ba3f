import Mathlib

-- A structure kept in a store occupies a list of cells. An update replaces them by
-- others.
namespace WaveDb.Lib

variable {κ ν : Type}

def addrs (cells : List (κ × ν)) : List κ := cells.map Prod.fst

@[simp] theorem addrs_nil : addrs ([] : List (κ × ν)) = [] := rfl

@[simp] theorem addrs_cons (c : κ × ν) (cells : List (κ × ν)) :
    addrs (c :: cells) = c.1 :: addrs cells := rfl

@[simp] theorem addrs_append (a b : List (κ × ν)) : addrs (a ++ b) = addrs a ++ addrs b :=
  List.map_append

theorem addrs_perm {a b : List (κ × ν)} (h : a.Perm b) : (addrs a).Perm (addrs b) := h.map _

theorem mem_addrs {cells : List (κ × ν)} {c : κ × ν} (h : c ∈ cells) : c.1 ∈ addrs cells :=
  List.mem_map_of_mem h

def Holds (s : κ → Option ν) (cells : List (κ × ν)) : Prop := ∀ c ∈ cells, s c.1 = some c.2

theorem Holds.perm {s : κ → Option ν} {a b : List (κ × ν)} (h : Holds s a) (hp : a.Perm b) :
    Holds s b := fun c hc => h c (hp.mem_iff.mpr hc)

theorem holds_append {s : κ → Option ν} {a b : List (κ × ν)} :
    Holds s (a ++ b) ↔ Holds s a ∧ Holds s b := by
  simp only [Holds, List.mem_append]
  exact ⟨fun h => ⟨fun c hc => h c (.inl hc), fun c hc => h c (.inr hc)⟩,
    fun h c hc => hc.elim (h.1 c) (h.2 c)⟩

theorem Holds.not_mem {s : κ → Option ν} {cells : List (κ × ν)} (h : Holds s cells) {i : κ}
    (hi : s i = none) : i ∉ addrs cells := by
  intro hm
  obtain ⟨c, hc, rfl⟩ := List.mem_map.mp hm
  have hsome := h c hc
  rw [hi] at hsome
  cases hsome

structure Replaces (s s' : κ → Option ν) (old new : List (κ × ν)) : Prop where
  holds : Holds s' new
  gone : ∀ i ∈ addrs old, i ∉ addrs new → s' i = none
  kept : ∀ i, i ∉ addrs old → i ∉ addrs new → s' i = s i

namespace Replaces

variable {s s' : κ → Option ν} {old new cells : List (κ × ν)}

theorem refl (h : Holds s cells) : Replaces s s cells cells :=
  ⟨h, fun _ hi hn => absurd hi hn, fun _ _ _ => rfl⟩

theorem perm (h : Replaces s s' old new) (hp : new.Perm cells) : Replaces s s' old cells := by
  have ha : ∀ i, i ∈ addrs new ↔ i ∈ addrs cells := fun i => (addrs_perm hp).mem_iff
  exact ⟨h.holds.perm hp, fun i hi hn => h.gone i hi (by rwa [ha]),
    fun i ho hn => h.kept i ho (by rwa [ha])⟩

variable [DecidableEq κ]

-- Writing a cell `i`, beside the cells of the structure other than `i`.
theorem set {mid : List (κ × ν)} {i : κ} {v : ν} (h : Replaces s s' old mid)
    (hsub : cells ⊆ mid) (haddrs : ∀ j ∈ addrs mid, j = i ∨ j ∈ addrs cells)
    (hn : i ∉ addrs cells) :
    Replaces s (Function.update s' i (some v)) old ((i, v) :: cells) := by
  constructor
  · intro c hc
    rcases List.mem_cons.mp hc with rfl | hc
    · simp
    · have hne : c.1 ≠ i := fun he => hn (he ▸ mem_addrs hc)
      rw [Function.update_of_ne hne]
      exact h.holds c (hsub hc)
  · intro j hj hnew
    simp only [addrs_cons, List.mem_cons, not_or] at hnew
    rw [Function.update_of_ne hnew.1]
    exact h.gone j hj fun hm => (haddrs j hm).elim hnew.1 hnew.2
  · intro j hj hnew
    simp only [addrs_cons, List.mem_cons, not_or] at hnew
    rw [Function.update_of_ne hnew.1]
    exact h.kept j hj fun hm => (haddrs j hm).elim hnew.1 hnew.2

theorem put {i : κ} {w v : ν} (h : Replaces s s' old ((i, w) :: cells))
    (hn : i ∉ addrs cells) :
    Replaces s (Function.update s' i (some v)) old ((i, v) :: cells) :=
  h.set (List.subset_cons_self _ _) (fun _ hj => by simpa using hj) hn

theorem add {i : κ} {v : ν} (h : Replaces s s' old cells) (hn : i ∉ addrs cells) :
    Replaces s (Function.update s' i (some v)) old ((i, v) :: cells) :=
  h.set (List.Subset.refl _) (fun _ hj => .inr hj) hn

theorem free {i : κ} {w : ν} (h : Replaces s s' old ((i, w) :: cells))
    (ho : i ∈ addrs old ∨ s i = none) (hn : i ∉ addrs cells) :
    Replaces s (Function.update s' i none) old cells := by
  constructor
  · intro c hc
    have hne : c.1 ≠ i := fun he => hn (he ▸ mem_addrs hc)
    rw [Function.update_of_ne hne]
    exact h.holds c (List.mem_cons_of_mem _ hc)
  · intro j hj hnew
    by_cases hji : j = i
    · simp [hji]
    · rw [Function.update_of_ne hji]
      exact h.gone j hj (by simp [hji, hnew])
  · intro j hj hnew
    rcases eq_or_ne j i with rfl | hne
    · rw [Function.update_self, ho.resolve_left hj]
    · rw [Function.update_of_ne hne]
      exact h.kept j hj (by simp [hne, hnew])

omit [DecidableEq κ] in
theorem part {s'' : κ → Option ν} {mine mine' rest : List (κ × ν)}
    (h : Replaces s s' old (mine ++ rest)) (h' : Replaces s' s'' mine mine')
    (hrest : ∀ i ∈ addrs rest, i ∉ addrs mine ∧ i ∉ addrs mine')
    (hold : ∀ i ∈ addrs mine, i ∈ addrs old ∨ s i = none) :
    Replaces s s'' old (mine' ++ rest) := by
  constructor
  · refine holds_append.mpr ⟨h'.holds, fun c hc => ?_⟩
    obtain ⟨hs, hs'⟩ := hrest c.1 (mem_addrs hc)
    rw [h'.kept c.1 hs hs']
    exact (holds_append.mp h.holds).2 c hc
  · intro i hi hn
    rw [addrs_append, List.mem_append, not_or] at hn
    by_cases hs : i ∈ addrs mine
    · exact h'.gone i hs hn.1
    · rw [h'.kept i hs hn.1]
      exact h.gone i hi (by simp [hs, hn.2])
  · intro i hi hn
    rw [addrs_append, List.mem_append, not_or] at hn
    by_cases hs : i ∈ addrs mine
    · rw [h'.gone i hs hn.1, (hold i hs).resolve_left hi]
    · rw [h'.kept i hs hn.1]
      exact h.kept i hi (by simp [hs, hn.2])

end Replaces

def Exactly (s : κ → Option ν) (cells : List (κ × ν)) : Prop :=
  Holds s cells ∧ ∀ i, i ∉ addrs cells → s i = none

theorem Replaces.exactly {s s' : κ → Option ν} {old new : List (κ × ν)}
    (h : Replaces s s' old new) (he : Exactly s old) : Exactly s' new := by
  refine ⟨h.holds, fun i hi => ?_⟩
  by_cases ho : i ∈ addrs old
  · exact h.gone i ho hi
  · rw [h.kept i ho hi]
    exact he.2 i ho

end WaveDb.Lib
