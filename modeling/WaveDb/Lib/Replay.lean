import Mathlib

-- A log of updates of a map, replayed from its front.
namespace WaveDb.Lib

variable {C K B : Type} [DecidableEq K] (place : C → K) (put : C → B)

def replay (m : K → B) (log : List C) : K → B :=
  log.foldl (fun m c => Function.update m (place c) (put c)) m

variable {place put}

theorem replay_agree {m : K → B} {log : List C} {k : K} {b : B} (hput : ∀ c ∈ log, place c = k → put c = b)
    (h : m k = b ∨ ∃ c ∈ log, place c = k) : replay place put m log k = b := by
  induction log generalizing m with
  | nil => simpa [replay] using h
  | cons c log ih =>
    obtain ⟨hc, hlog⟩ := List.forall_mem_cons.mp hput
    rw [replay, List.foldl_cons, ← replay]
    refine ih hlog ?_
    by_cases hk : place c = k
    · rw [hk, Function.update_self]
      exact .inl (hc hk)
    · rw [Function.update_of_ne (Ne.symm hk)]
      simpa [hk] using h

theorem replay_untouched {m : K → B} {log : List C} {k : K} (h : ∀ c ∈ log, place c ≠ k) :
    replay place put m log k = m k := replay_agree (fun c hc hk => (h c hc hk).elim) (.inl rfl)

theorem replay_latest {stamp : C → Nat} {m : K → B} {log : List C} {c : C}
    (hlog : log.Pairwise fun a b => stamp a < stamp b) (hc : c ∈ log)
    (hlatest : ∀ c' ∈ log, place c' = place c → stamp c' ≤ stamp c) :
    replay place put m log (place c) = put c := by
  induction log generalizing m with
  | nil => exact (List.not_mem_nil hc).elim
  | cons first log ih =>
    obtain ⟨hfirst, hrest⟩ := List.pairwise_cons.mp hlog
    rw [replay, List.foldl_cons, ← replay]
    rcases List.mem_cons.mp hc with rfl | hc
    · have hlater : ∀ c' ∈ log, place c' ≠ place c := by
        intro c' hc' hplace
        have hle := hlatest c' (List.mem_cons_of_mem _ hc') hplace
        have hlt := hfirst c' hc'
        omega
      rw [replay_untouched hlater, Function.update_self]
    · exact ih hrest hc fun c' hc' => hlatest c' (List.mem_cons_of_mem _ hc')

section Sorted

variable {A A' : Type} {es : List (Nat × A)}

theorem sorted_ascending (h : es.Pairwise fun e e' => e.1 ≠ e'.1) :
    (es.mergeSort fun a b => a.1 ≤ b.1).Pairwise fun e e' => e.1 < e'.1 := by
  have hsorted : (es.mergeSort fun a b => a.1 ≤ b.1).Pairwise fun e e' => decide (e.1 ≤ e'.1) = true :=
    List.pairwise_mergeSort (fun a b c hab hbc => by simp only [decide_eq_true_eq] at *; omega)
      (fun a b => by simp only [Bool.or_eq_true, decide_eq_true_eq]; omega) es
  have hdistinct := ((List.mergeSort_perm es fun a b => a.1 ≤ b.1).pairwise_iff fun hne => Ne.symm hne).mpr h
  exact hsorted.imp₂ (fun e e' hle hne => lt_of_le_of_ne (of_decide_eq_true hle) hne) hdistinct

-- Where no stamp comes twice the order does not depend on how the entries came.
theorem sorted_map (h : es.Pairwise fun e e' => e.1 ≠ e'.1) (f : A → A') {fs : List (Nat × A')}
    (hperm : fs.Perm (es.map (Prod.map id f))) :
    fs.mergeSort (fun a b => a.1 ≤ b.1) = (es.mergeSort fun a b => a.1 ≤ b.1).map (Prod.map id f) := by
  have hdistinct : fs.Pairwise fun e e' => e.1 ≠ e'.1 :=
    (hperm.pairwise_iff fun hne => Ne.symm hne).mpr (List.pairwise_map.mpr h)
  refine List.Perm.eq_of_pairwise (fun a b _ _ hab hba => (lt_asymm hab hba).elim) (sorted_ascending hdistinct)
    (List.pairwise_map.mpr (sorted_ascending h)) ?_
  exact (List.mergeSort_perm fs _).trans (hperm.trans ((List.mergeSort_perm es _).symm.map _))

end Sorted

end WaveDb.Lib
