import Mathlib

-- Runs of a labelled transition system in which every step meets a condition
-- on the state before it.
namespace WaveDb.Lib

variable {S L : Type}

inductive Leads (step : S → L → S → Prop) (ok : S → L → Prop) (start : S) : S → Prop
  | start : Leads step ok start start
  | step {s s' : S} {l : L} (leads : Leads step ok start s) (meets : ok s l) (next : step s l s') :
      Leads step ok start s'

namespace Leads

variable {step : S → L → S → Prop} {ok : S → L → Prop} {start s : S} {inv : S → Prop}

theorem invariant (h : Leads step ok start s) (hstart : inv start)
    (hstep : ∀ s l s', inv s → ok s l → step s l s' → inv s') : inv s := by
  induction h with
  | start => exact hstart
  | step _ hmeets hnext ih => exact hstep _ _ _ ih hmeets hnext

end Leads

-- Runs a list of labels, as long as each step meets a condition that can be
-- decided.
def execAll (exec : S → L → Option S) (meets : S → L → Bool) (s : S) (labels : List L) : Option S :=
  labels.foldlM (fun s l => if meets s l then exec s l else none) s

theorem Leads.execAll {step : S → L → S → Prop} {ok : S → L → Prop} {start s s' : S} {exec : S → L → Option S}
    {meets : S → L → Bool} {labels : List L}
    (hstep : ∀ s l s', meets s l = true → exec s l = some s' → step s l s') (hmeets : ∀ s l, meets s l = true → ok s l)
    (h : Leads step ok start s) (hrun : execAll exec meets s labels = some s') : Leads step ok start s' := by
  induction labels generalizing s with
  | nil =>
    cases hrun
    exact h
  | cons l labels ih =>
    rw [Lib.execAll, List.foldlM_cons] at hrun
    obtain ⟨s₁, hnext, hrest⟩ := Option.bind_eq_some_iff.mp hrun
    by_cases hl : meets s l = true
    · rw [if_pos hl] at hnext
      exact ih (h.step (hmeets s l hl) (hstep s l s₁ hl hnext)) hrest
    · rw [if_neg hl] at hnext
      cases hnext

end WaveDb.Lib
