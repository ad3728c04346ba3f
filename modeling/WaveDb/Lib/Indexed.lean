import WaveDb.Lib.Keyed

-- An ordered list that holds the entries of every owner that has a record.
namespace WaveDb.Lib

variable {E K O R : Type} [LinearOrder K]

structure Indexes (f : E → K) (owner : E → O) (entries : O → R → List E) (living : O → Option R)
    (xs : List E) : Prop where
  ascending : Ascending f xs
  mem : ∀ e, e ∈ xs ↔ ∃ r ∈ living (owner e), e ∈ entries (owner e) r

namespace Indexes

variable {f : E → K} {owner : E → O} {entries : O → R → List E} {living : O → Option R} {xs ys : List E}

theorem nil (h : ∀ o, living o = none) : Indexes f owner entries living [] := by
  refine ⟨List.Pairwise.nil, fun e => ?_⟩
  simp [h]

theorem mem_living (h : Indexes f owner entries living xs) {o : O} {r : R} (hliving : living o = some r) {e : E}
    (he : owner e = o) : e ∈ xs ↔ e ∈ entries o r := by
  rw [h.mem, he, hliving]
  simp

theorem not_mem_vacant (h : Indexes f owner entries living xs) {o : O} (hliving : living o = none) {e : E}
    (he : owner e = o) : e ∉ xs := by
  rw [h.mem, he, hliving]
  simp

theorem unique (hx : Indexes f owner entries living xs) (hy : Indexes f owner entries living ys) : xs = ys :=
  hx.ascending.eq_of_mem_iff hy.ascending fun e => (hx.mem e).trans (hy.mem e).symm

theorem drop_vacant (h : Indexes f owner entries living xs) {o : O} (hliving : living o = none) {key : K}
    (howner : ∀ e, f e = key → owner e = o) :
    Indexes f owner entries living (dropKey f key xs) := by
  refine ⟨ascending_drop h.ascending _, fun e => ?_⟩
  rw [mem_dropKey, ← h.mem, and_iff_left_iff_imp]
  exact fun hmem heq => h.not_mem_vacant hliving (howner e heq) hmem

variable [DecidableEq O] {o : O} {r : R}

theorem update (h : Indexes f owner entries living xs) (hys : Ascending f ys) (new : Option R)
    (hother : ∀ e, owner e ≠ o → (e ∈ ys ↔ e ∈ xs))
    (howner : ∀ e, owner e = o → (e ∈ ys ↔ ∃ r ∈ new, e ∈ entries o r)) :
    Indexes f owner entries (Function.update living o new) ys := by
  refine ⟨hys, fun e => ?_⟩
  by_cases he : owner e = o
  · rw [howner e he, he, Function.update_self]
  · rw [hother e he, h.mem, Function.update_of_ne he]

-- Indexes with one entry for each record.
section Single

variable {entry : O → R → E} {r' : R}

theorem put (h : Indexes f owner (fun o r => [entry o r]) living xs) (hliving : living o = none)
    (howner : ∀ e, f e = f (entry o r) → owner e = o) :
    Indexes f owner (fun o r => [entry o r]) (Function.update living o (some r))
      (putKey f (entry o r) xs) := by
  have hasc : Ascending f (putKey f (entry o r) xs) := ascending_put h.ascending _
  refine h.update hasc _ (fun e he => ?_) fun e he => ?_
  · have hkey : f e ≠ f (entry o r) := fun heq => he (howner e heq)
    have hne : e ≠ entry o r := fun heq => hkey (congrArg f heq)
    simp [mem_putKey, hkey, hne]
  · have hgone := h.not_mem_vacant hliving he
    simp [mem_putKey, hgone]

theorem drop (h : Indexes f owner (fun o r => [entry o r]) living xs) (hliving : living o = some r)
    (howner : ∀ e, f e = f (entry o r) → owner e = o) :
    Indexes f owner (fun o r => [entry o r]) (Function.update living o none)
      (dropKey f (f (entry o r)) xs) := by
  have hasc : Ascending f (dropKey f (f (entry o r)) xs) := ascending_drop h.ascending _
  refine h.update hasc _ (fun e he => ?_) fun e he => ?_
  · have hkey : f e ≠ f (entry o r) := fun heq => he (howner e heq)
    simp [mem_dropKey, hkey]
  · have hmem := h.mem_living hliving he
    rw [List.mem_singleton] at hmem
    rw [mem_dropKey, hmem]
    simp +contextual

theorem swap (h : Indexes f owner (fun o r => [entry o r]) living xs) (hliving : living o = some r)
    (hold : ∀ e, f e = f (entry o r) → owner e = o) (hnew : ∀ e, f e = f (entry o r') → owner e = o) :
    Indexes f owner (fun o r => [entry o r]) (Function.update living o (some r'))
      (putKey f (entry o r') (dropKey f (f (entry o r)) xs)) := by
  have hput := (h.drop hliving hold).put (Function.update_self ..) hnew
  rwa [Function.update_idem] at hput

theorem replace (h : Indexes f owner (fun o r => [entry o r]) living xs) (hliving : living o = some r)
    (howner : ∀ e, f e = f (entry o r') → owner e = o) (hkey : f (entry o r) = f (entry o r')) :
    Indexes f owner (fun o r => [entry o r]) (Function.update living o (some r'))
      (putKey f (entry o r') xs) := by
  have hasc : Ascending f (putKey f (entry o r') xs) := ascending_put h.ascending _
  refine h.update hasc _ (fun e he => ?_) fun e he => ?_
  · have hkey : f e ≠ f (entry o r') := fun heq => he (howner e heq)
    have hne : e ≠ entry o r' := fun heq => hkey (congrArg f heq)
    simp [mem_putKey, hkey, hne]
  · have hmem := h.mem_living hliving he
    rw [List.mem_singleton] at hmem
    rw [mem_putKey, hmem]
    simp +contextual [hkey]

end Single

-- Indexes of keys alone, with any number of them for a record.
section Many

variable {owner : K → O} {entries : O → R → List K} {xs : List K} {r' : R}

theorem ascending_putAll (keys : List K) (h : Ascending id xs) :
    Ascending id (keys.foldl (fun tree key => putKey id key tree) xs) := ascending_foldl_putKey keys h

theorem mem_putAll {keys : List K} {e : K} :
    e ∈ keys.foldl (fun tree key => putKey id key tree) xs ↔ e ∈ keys ∨ e ∈ xs := by
  induction keys generalizing xs with
  | nil => simp
  | cons key keys ih =>
    rw [List.foldl_cons, ih, mem_putKey, List.mem_cons]
    by_cases he : e = key <;> simp [he]

theorem ascending_dropAll (keys : List K) (h : Ascending id xs) :
    Ascending id (keys.foldl (fun tree key => dropKey id key tree) xs) := by
  induction keys generalizing xs with
  | nil => exact h
  | cons key keys ih => exact ih (ascending_drop h key)

theorem mem_dropAll {keys : List K} {e : K} :
    e ∈ keys.foldl (fun tree key => dropKey id key tree) xs ↔ e ∈ xs ∧ e ∉ keys := by
  induction keys generalizing xs with
  | nil => simp
  | cons key keys ih =>
    rw [List.foldl_cons, ih, mem_dropKey, List.mem_cons]
    by_cases he : e = key <;> simp [he]

theorem putAll (h : Indexes id owner entries living xs) (hliving : living o = none)
    (howner : ∀ e ∈ entries o r, owner e = o) :
    Indexes id owner entries (Function.update living o (some r))
      ((entries o r).foldl (fun tree key => putKey id key tree) xs) := by
  refine h.update (ascending_putAll _ h.ascending) _ (fun e he => ?_) fun e he => ?_
  · have hnot : e ∉ entries o r := fun hmem => he (howner e hmem)
    simp [mem_putAll, hnot]
  · have hgone := h.not_mem_vacant hliving he
    simp [mem_putAll, hgone]

theorem dropAll (h : Indexes id owner entries living xs) (hliving : living o = some r)
    (howner : ∀ e ∈ entries o r, owner e = o) :
    Indexes id owner entries (Function.update living o none)
      ((entries o r).foldl (fun tree key => dropKey id key tree) xs) := by
  refine h.update (ascending_dropAll _ h.ascending) _ (fun e he => ?_) fun e he => ?_
  · have hnot : e ∉ entries o r := fun hmem => he (howner e hmem)
    simp [mem_dropAll, hnot]
  · rw [mem_dropAll, h.mem_living hliving he]
    simp

omit [DecidableEq O] in
theorem dropAll_vacant (h : Indexes id owner entries living xs) (hliving : living o = none) {keys : List K}
    (howner : ∀ e ∈ keys, owner e = o) :
    Indexes id owner entries living (keys.foldl (fun tree key => dropKey id key tree) xs) := by
  refine ⟨ascending_dropAll _ h.ascending, fun e => ?_⟩
  rw [mem_dropAll, ← h.mem, and_iff_left_iff_imp]
  exact fun hmem hkey => h.not_mem_vacant hliving (howner e hkey) hmem

theorem exchange (h : Indexes id owner entries living xs) (hliving : living o = some r)
    (hold : ∀ e ∈ entries o r, owner e = o) (hnew : ∀ e ∈ entries o r', owner e = o) :
    Indexes id owner entries (Function.update living o (some r'))
      (((entries o r').filter (· ∉ entries o r)).foldl (fun tree key => putKey id key tree)
        (((entries o r).filter (· ∉ entries o r')).foldl (fun tree key => dropKey id key tree) xs)) := by
  refine h.update (ascending_putAll _ (ascending_dropAll _ h.ascending)) _ (fun e he => ?_) fun e he => ?_
  · have hnot : e ∉ entries o r := fun hmem => he (hold e hmem)
    have hnot' : e ∉ entries o r' := fun hmem => he (hnew e hmem)
    simp [mem_putAll, mem_dropAll, hnot, hnot']
  · rw [mem_putAll, mem_dropAll, h.mem_living hliving he]
    by_cases hmem : e ∈ entries o r <;> by_cases hmem' : e ∈ entries o r' <;> simp [hmem, hmem']

theorem keepAll (h : Indexes id owner entries living xs) (hliving : living o = some r)
    (hentries : entries o r = entries o r') :
    Indexes id owner entries (Function.update living o (some r')) xs := by
  refine h.update h.ascending _ (fun e _ => Iff.rfl) fun e he => ?_
  rw [h.mem_living hliving he, hentries]
  simp

end Many

end Indexes

end WaveDb.Lib
