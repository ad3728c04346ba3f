import WaveDb.Lib.Keyed

-- Ordered maps as lists of pairs in ascending order of their keys.
namespace WaveDb.Lib

abbrev Table (K β : Type) := List (K × β)

namespace Table

variable {K β : Type} [LinearOrder K] {t : Table K β} {key key' : K} {b : β}

def get (t : Table K β) (key : K) : Option β := (t.find? fun x => x.1 = key).map Prod.snd

def put (t : Table K β) (key : K) (b : β) : Table K β :=
  below Prod.fst key t ++ (key, b) :: above Prod.fst key t

def erase (t : Table K β) (key : K) : Table K β := below Prod.fst key t ++ above Prod.fst key t

@[simp] theorem get_nil : get ([] : Table K β) key = none := rfl

theorem get_cons : get ((key, b) :: t) key' = if key = key' then some b else get t key' := by
  by_cases h : key = key'
  · simp [get, h]
  · simp [get, h]

theorem get_append {t' : Table K β} : get (t ++ t') key = (get t key).or (get t' key) := by
  simp only [get, List.find?_append]
  cases t.find? fun x => x.1 = key <;> rfl

theorem mem_of_get (h : get t key = some b) : (key, b) ∈ t := by
  obtain ⟨x, hfind, rfl⟩ := Option.map_eq_some_iff.mp h
  have hkey := List.find?_some hfind
  rw [decide_eq_true_eq] at hkey
  rw [← hkey]
  exact List.mem_of_find?_eq_some hfind

theorem get_of_mem (ht : Ascending Prod.fst t) {x : K × β} (hx : x ∈ t) : get t x.1 = some x.2 := by
  induction t with
  | nil => cases hx
  | cons y t ih =>
    obtain ⟨key, b⟩ := y
    obtain ⟨hlt, htail⟩ := List.pairwise_cons.mp ht
    rw [get_cons]
    rcases List.mem_cons.mp hx with rfl | hx
    · rw [if_pos rfl]
    · rw [if_neg (ne_of_lt (hlt x hx)), ih htail hx]

theorem get_eq_none : get t key = none ↔ ∀ x ∈ t, x.1 ≠ key := by
  simp [get]

variable (t key) in
theorem get_filter (p : K → Bool) :
    get (t.filter fun x => p x.1) key = if p key then get t key else none := by
  induction t with
  | nil => simp
  | cons x t ih =>
    obtain ⟨k, b⟩ := x
    by_cases hk : k = key
    · subst hk
      cases hp : p k with
      | true => simp [hp, get_cons]
      | false => simpa [List.filter_cons, hp] using ih
    · cases hp : p k with
      | true =>
        simp only [List.filter_cons, hp, if_true, get_cons, hk, if_false]
        exact ih
      | false =>
        simp only [List.filter_cons, hp, Bool.false_eq_true, if_false, get_cons, hk]
        exact ih

theorem get_below : get (below Prod.fst key t) key' = if key' < key then get t key' else none := by
  simpa [below] using get_filter t key' fun k => decide (k < key)

theorem get_above : get (above Prod.fst key t) key' = if key < key' then get t key' else none := by
  simpa [above] using get_filter t key' fun k => decide (key < k)

@[simp] theorem get_put : get (t.put key b) key' = if key = key' then some b else get t key' := by
  rw [put, get_append, get_below, get_cons, get_above]
  rcases lt_trichotomy key' key with h | h | h
  · simp [h, h.ne', h.not_gt]
  · simp [h]
  · simp [h, h.ne, h.not_gt]

@[simp] theorem get_erase : get (t.erase key) key' = if key = key' then none else get t key' := by
  rw [erase, get_append, get_below, get_above]
  rcases lt_trichotomy key' key with h | h | h
  · simp [h, h.ne', h.not_gt]
  · simp [h]
  · simp [h, h.ne, h.not_gt]

theorem get_map {γ : Type} (f : β → γ) :
    get (t.map fun x => (x.1, f x.2)) key = (get t key).map f := by
  induction t with
  | nil => rfl
  | cons x t ih =>
    obtain ⟨k, b⟩ := x
    rw [List.map_cons, get_cons, get_cons, ih]
    split <;> rfl

theorem mem_put {x : K × β} (h : x ∈ t.put key b) : x = (key, b) ∨ x ∈ t := by
  rcases List.mem_append.mp h with h | h
  · exact .inr (mem_below.mp h).1
  · rcases List.mem_cons.mp h with rfl | h
    · exact .inl rfl
    · exact .inr (mem_above.mp h).1

theorem ascending_put (h : Ascending Prod.fst t) (key : K) (b : β) :
    Ascending Prod.fst (t.put key b) :=
  Lib.ascending_put h (key, b)

end Table

end WaveDb.Lib
