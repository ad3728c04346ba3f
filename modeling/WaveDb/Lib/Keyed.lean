import Mathlib

-- Lists kept in ascending order of a key.
namespace WaveDb.Lib

variable {α K : Type} [LinearOrder K] (f : α → K)

def Ascending (xs : List α) : Prop := xs.Pairwise fun a b => f a < f b

def below (key : K) (xs : List α) : List α := xs.filter fun x => f x < key

def above (key : K) (xs : List α) : List α := xs.filter fun x => key < f x

variable {f}

theorem Ascending.append {a b : List α} (h : Ascending f (a ++ b)) :
    Ascending f a ∧ Ascending f b ∧ ∀ x ∈ a, ∀ y ∈ b, f x < f y := by
  obtain ⟨ha, hb, hab⟩ := List.pairwise_append.mp h
  exact ⟨ha, hb, hab⟩

theorem Ascending.sublist {a b : List α} (h : Ascending f b) (hs : a.Sublist b) : Ascending f a :=
  List.Pairwise.sublist hs h

theorem below_append (key : K) (a b : List α) :
    below f key (a ++ b) = below f key a ++ below f key b := List.filter_append ..

theorem above_append (key : K) (a b : List α) :
    above f key (a ++ b) = above f key a ++ above f key b := List.filter_append ..

theorem mem_below {key : K} {xs : List α} {x : α} :
    x ∈ below f key xs ↔ x ∈ xs ∧ f x < key := by simp [below]

theorem mem_above {key : K} {xs : List α} {x : α} :
    x ∈ above f key xs ↔ x ∈ xs ∧ key < f x := by simp [above]

theorem parts_of_lt {key : K} {a : List α} (h : ∀ x ∈ a, f x < key) :
    below f key a = a ∧ above f key a = [] :=
  ⟨List.filter_eq_self.mpr (by simpa using h),
    List.filter_eq_nil_iff.mpr fun x hx => by simpa using (h x hx).le⟩

theorem parts_of_gt {key : K} {a : List α} (h : ∀ x ∈ a, key < f x) :
    below f key a = [] ∧ above f key a = a :=
  ⟨List.filter_eq_nil_iff.mpr fun x hx => by simpa using (h x hx).le,
    List.filter_eq_self.mpr (by simpa using h)⟩

theorem parts_middle {key : K} {a b : List α} (ha : ∀ x ∈ a, f x < key) (hb : ∀ x ∈ b, key < f x)
    (m : List α) : below f key (a ++ m ++ b) = a ++ below f key m ∧
      above f key (a ++ m ++ b) = above f key m ++ b := by
  simp [below_append, above_append, parts_of_lt ha, parts_of_gt hb]

theorem drop_at {a b : List α} {x : α} (h : Ascending f (a ++ x :: b)) :
    below f (f x) (a ++ x :: b) ++ above f (f x) (a ++ x :: b) = a ++ b := by
  obtain ⟨-, hb, hcross⟩ := h.append
  have hsplit : a ++ x :: b = a ++ [x] ++ b := by simp
  obtain ⟨hbelow, habove⟩ := parts_middle (fun y hy => hcross y hy x (by simp))
    (List.pairwise_cons.mp hb).1 [x]
  rw [hsplit, hbelow, habove]
  simp [below, above]

theorem exists_parts {xs : List α} (h : Ascending f xs) (key : K) :
    xs = below f key xs ++ above f key xs ∨
      ∃ x, f x = key ∧ xs = below f key xs ++ x :: above f key xs := by
  induction xs with
  | nil => exact .inl rfl
  | cons x xs ih =>
    obtain ⟨hx, hrest⟩ := List.pairwise_cons.mp h
    rcases lt_trichotomy (f x) key with hlt | heq | hgt
    · have hb : below f key (x :: xs) = x :: below f key xs := by simp [below, hlt]
      have ha : above f key (x :: xs) = above f key xs := by simp [above, hlt.le]
      rw [hb, ha]
      rcases ih hrest with hsplit | ⟨y, hy, hsplit⟩
      · exact .inl (congrArg (x :: ·) hsplit)
      · exact .inr ⟨y, hy, congrArg (x :: ·) hsplit⟩
    · obtain ⟨hb, ha⟩ := parts_of_gt (a := xs) fun y hy => heq ▸ hx y hy
      refine .inr ⟨x, heq, ?_⟩
      have hb' : below f key (x :: xs) = below f key xs := by simp [below, heq]
      have ha' : above f key (x :: xs) = above f key xs := by simp [above, heq]
      rw [hb', ha', hb, ha]
      rfl
    · have hall : ∀ y ∈ x :: xs, key < f y := fun y hy => by
        rcases List.mem_cons.mp hy with rfl | hy
        · exact hgt
        · exact hgt.trans (hx y hy)
      obtain ⟨hb, ha⟩ := parts_of_gt hall
      exact .inl (by rw [hb, ha]; rfl)

theorem ascending_drop {xs : List α} (h : Ascending f xs) (key : K) :
    Ascending f (below f key xs ++ above f key xs) := by
  rcases exists_parts h key with heq | ⟨x, -, heq⟩
  · rwa [← heq]
  · rw [heq] at h
    exact h.sublist (by simp)

theorem length_put {xs : List α} (h : Ascending f xs) (key : K) (x : α) :
    xs.length ≤ (below f key xs ++ x :: above f key xs).length ∧
      (below f key xs ++ x :: above f key xs).length ≤ xs.length + 1 := by
  rcases exists_parts h key with heq | ⟨y, -, heq⟩
  · have hlen := congrArg List.length heq
    simp only [List.length_append, List.length_cons] at hlen ⊢
    omega
  · have hlen := congrArg List.length heq
    simp only [List.length_append, List.length_cons] at hlen ⊢
    omega

theorem ascending_put {xs : List α} (h : Ascending f xs) (x : α) :
    Ascending f (below f (f x) xs ++ x :: above f (f x) xs) := by
  have hdrop := (ascending_drop h (f x)).append
  refine List.pairwise_append.mpr ⟨hdrop.1, List.pairwise_cons.mpr
    ⟨fun y hy => (mem_above.mp hy).2, hdrop.2.1⟩, fun y hy z hz => ?_⟩
  rcases List.mem_cons.mp hz with rfl | hz
  · exact (mem_below.mp hy).2
  · exact hdrop.2.2 y hy z hz

section Puts

variable (f)

def putKey (x : α) (xs : List α) : List α := below f (f x) xs ++ x :: above f (f x) xs

def dropKey (key : K) (xs : List α) : List α := below f key xs ++ above f key xs

variable {f} {xs : List α} {x y : α}

theorem mem_putKey : y ∈ putKey f x xs ↔ y = x ∨ y ∈ xs ∧ f y ≠ f x := by
  rw [putKey, List.mem_append, List.mem_cons, mem_below, mem_above, ne_iff_lt_or_gt]
  tauto

theorem mem_dropKey {key : K} : y ∈ dropKey f key xs ↔ y ∈ xs ∧ f y ≠ key := by
  rw [dropKey, List.mem_append, mem_below, mem_above, ne_iff_lt_or_gt]
  tauto

theorem perm_dropKey (h : Ascending f xs) (hx : x ∈ xs) : xs.Perm (x :: dropKey f (f x) xs) := by
  obtain ⟨a, b, rfl⟩ := List.append_of_mem hx
  rw [dropKey, drop_at h]
  exact List.perm_middle

theorem perm_putKey (h : Ascending f xs) (hx : ∀ y ∈ xs, f y ≠ f x) :
    (putKey f x xs).Perm (x :: xs) := by
  have hparts : xs = below f (f x) xs ++ above f (f x) xs := by
    rcases exists_parts h (f x) with hparts | ⟨y, hy, hparts⟩
    · exact hparts
    · exact absurd hy (hx y (hparts ▸ by simp))
  calc (putKey f x xs).Perm (x :: (below f (f x) xs ++ above f (f x) xs)) := List.perm_middle
    _ = x :: xs := by rw [← hparts]

theorem ascending_foldl_putKey (ys : List α) (h : Ascending f xs) :
    Ascending f (ys.foldl (fun set y => putKey f y set) xs) := by
  induction ys generalizing xs with
  | nil => exact h
  | cons y ys ih => exact ih (ascending_put h y)

variable (f xs) in
theorem perm_foldl_putKey {ys : List α} (h : Ascending f xs)
    (hys : (ys ++ xs).Pairwise fun a b => f a ≠ f b) :
    (ys.foldl (fun set y => putKey f y set) xs).Perm (ys ++ xs) := by
  induction ys generalizing xs with
  | nil => exact .refl _
  | cons y ys ih =>
    obtain ⟨hy, hrest⟩ := List.pairwise_cons.mp hys
    have hput := perm_putKey (x := y) h fun z hz => (hy z (by simp [hz])).symm
    have hperm : (ys ++ putKey f y xs).Perm (y :: (ys ++ xs)) :=
      (hput.append_left ys).trans List.perm_middle
    exact (ih _ (ascending_put h y) (hys.perm hperm.symm fun hab => hab.symm)).trans hperm

end Puts

end WaveDb.Lib
