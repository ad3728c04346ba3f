import Mathlib

-- Edit distance over lists, and what an edit does to the windows of a list.
namespace WaveDb.Lib

variable {α : Type} [DecidableEq α]

def levenshtein : List α → List α → Nat
  | [], ys => ys.length
  | x :: xs, [] => (x :: xs).length
  | x :: xs, y :: ys =>
    min (min (levenshtein xs ys + if x = y then 0 else 1) (levenshtein xs (y :: ys) + 1))
      (levenshtein (x :: xs) ys + 1)
termination_by xs ys => xs.length + ys.length

inductive Aligned : List α → List α → Nat → Prop
  | nil : Aligned [] [] 0
  | keep {xs ys : List α} {n : Nat} (x : α) : Aligned xs ys n → Aligned (x :: xs) (x :: ys) n
  | replace {xs ys : List α} {n : Nat} (x y : α) :
      Aligned xs ys n → Aligned (x :: xs) (y :: ys) (n + 1)
  | delete {xs ys : List α} {n : Nat} (x : α) : Aligned xs ys n → Aligned (x :: xs) ys (n + 1)
  | insert {xs ys : List α} {n : Nat} (y : α) : Aligned xs ys n → Aligned xs (y :: ys) (n + 1)

namespace Aligned

variable {xs ys us vs : List α} {m n : Nat}

omit [DecidableEq α] in
theorem append (h : Aligned xs ys m) (h' : Aligned us vs n) :
    Aligned (xs ++ us) (ys ++ vs) (m + n) := by
  induction h with
  | nil => rwa [Nat.zero_add]
  | keep x _ ih => exact .keep x ih
  | replace x y _ ih =>
    rw [Nat.add_right_comm]
    exact .replace x y ih
  | delete x _ ih =>
    rw [Nat.add_right_comm]
    exact .delete x ih
  | insert y _ ih =>
    rw [Nat.add_right_comm]
    exact .insert y ih

omit [DecidableEq α] in
theorem reverse (h : Aligned xs ys n) : Aligned xs.reverse ys.reverse n := by
  induction h with
  | nil => exact .nil
  | keep x _ ih => simpa using ih.append (.keep x .nil)
  | replace x y _ ih => simpa using ih.append (.replace x y .nil)
  | delete x _ ih => simpa using ih.append (.delete x .nil)
  | insert y _ ih => simpa using ih.append (.insert y .nil)

omit [DecidableEq α] in
theorem symm (h : Aligned xs ys n) : Aligned ys xs n := by
  induction h with
  | nil => exact .nil
  | keep x _ ih => exact .keep x ih
  | replace x y _ ih => exact .replace y x ih
  | delete x _ ih => exact .insert x ih
  | insert y _ ih => exact .delete y ih

omit [DecidableEq α] in
theorem map {β : Type} (f : α → β) (h : Aligned xs ys n) : Aligned (xs.map f) (ys.map f) n := by
  induction h with
  | nil => exact .nil
  | keep x _ ih => exact .keep (f x) ih
  | replace x y _ ih => exact .replace (f x) (f y) ih
  | delete x _ ih => exact .delete (f x) ih
  | insert y _ ih => exact .insert (f y) ih

omit [DecidableEq α] in
theorem length_le (h : Aligned xs ys n) : xs.length ≤ ys.length + n := by
  induction h with
  | nil => exact Nat.le_refl _
  | keep x _ ih | replace x y _ ih | delete x _ ih | insert y _ ih =>
    simp only [List.length_cons]
    omega

omit [DecidableEq α] in
theorem split {zs : List α} (h : Aligned xs zs n) : ∀ {ys vs : List α}, zs = ys ++ vs →
    ∃ us ws k l, xs = us ++ ws ∧ n = k + l ∧ Aligned us ys k ∧ Aligned ws vs l := by
  induction h with
  | nil =>
    intro ys vs hzs
    obtain ⟨rfl, rfl⟩ := List.append_eq_nil_iff.mp hzs.symm
    exact ⟨[], [], 0, 0, rfl, rfl, .nil, .nil⟩
  | @keep xs zs n x h ih =>
    intro ys vs hzs
    cases ys with
    | nil =>
      obtain rfl : x :: zs = vs := hzs
      exact ⟨[], _, 0, _, rfl, (Nat.zero_add _).symm, .nil, .keep x h⟩
    | cons y ys =>
      obtain ⟨rfl, htail⟩ := List.cons.inj hzs
      obtain ⟨us, ws, k, l, rfl, rfl, hu, hw⟩ := ih htail
      exact ⟨x :: us, ws, k, l, rfl, rfl, .keep x hu, hw⟩
  | @replace xs zs n x z h ih =>
    intro ys vs hzs
    cases ys with
    | nil =>
      obtain rfl : z :: zs = vs := hzs
      exact ⟨[], _, 0, _, rfl, (Nat.zero_add _).symm, .nil, .replace x z h⟩
    | cons y ys =>
      obtain ⟨rfl, htail⟩ := List.cons.inj hzs
      obtain ⟨us, ws, k, l, rfl, rfl, hu, hw⟩ := ih htail
      exact ⟨x :: us, ws, k + 1, l, rfl, by omega, .replace x z hu, hw⟩
  | delete x _ ih =>
    intro ys vs hzs
    obtain ⟨us, ws, k, l, rfl, rfl, hu, hw⟩ := ih hzs
    exact ⟨x :: us, ws, k + 1, l, rfl, by omega, .delete x hu, hw⟩
  | @insert xs zs n z h ih =>
    intro ys vs hzs
    cases ys with
    | nil =>
      obtain rfl : z :: zs = vs := hzs
      exact ⟨[], _, 0, _, rfl, (Nat.zero_add _).symm, .nil, .insert z h⟩
    | cons y ys =>
      obtain ⟨rfl, htail⟩ := List.cons.inj hzs
      obtain ⟨us, ws, k, l, rfl, rfl, hu, hw⟩ := ih htail
      exact ⟨us, ws, k + 1, l, rfl, by omega, .insert z hu, hw⟩

omit [DecidableEq α] in
theorem of_nil_left (ys : List α) : Aligned [] ys ys.length := by
  induction ys with
  | nil => exact .nil
  | cons y ys ih => exact .insert y ih

theorem head (h : Aligned xs ys n) (x y : α) :
    Aligned (x :: xs) (y :: ys) (n + if x = y then 0 else 1) := by
  split
  · next hxy =>
      subst hxy
      exact .keep x h
  · exact .replace x y h

end Aligned

section Distance

variable (xs ys : List α)

theorem aligned_levenshtein : Aligned xs ys (levenshtein xs ys) := by
  fun_induction levenshtein xs ys with
  | case1 ys => exact .of_nil_left ys
  | case2 x xs => exact (Aligned.of_nil_left _).symm
  | case3 x xs y ys ih₁ ih₂ ih₃ =>
    rcases min_choice (min (levenshtein xs ys + if x = y then 0 else 1)
      (levenshtein xs (y :: ys) + 1)) (levenshtein (x :: xs) ys + 1) with h | h
    · rw [h]
      rcases min_choice (levenshtein xs ys + if x = y then 0 else 1)
        (levenshtein xs (y :: ys) + 1) with h' | h'
      · rw [h']
        exact ih₁.head x y
      · rw [h']
        exact .delete x ih₂
    · rw [h]
      exact .insert y ih₃

variable {xs ys}

theorem Aligned.levenshtein_le {n : Nat} (h : Aligned xs ys n) : levenshtein xs ys ≤ n := by
  induction h with
  | nil => simp [levenshtein]
  | keep x _ ih =>
    rw [levenshtein]
    simp only [if_true]
    omega
  | @replace xs ys n x y _ ih =>
    rw [levenshtein]
    have hcost : (if x = y then 0 else 1) ≤ 1 := by split <;> omega
    omega
  | @delete xs ys n x _ ih =>
    cases ys with
    | nil =>
      cases xs with
      | nil => simp [levenshtein]
      | cons x' xs =>
        simp only [levenshtein, List.length_cons] at ih ⊢
        omega
    | cons y ys =>
      rw [levenshtein]
      omega
  | @insert xs ys n y _ ih =>
    cases xs with
    | nil =>
      simp only [levenshtein, List.length_cons] at ih ⊢
      omega
    | cons x xs =>
      rw [levenshtein]
      omega

variable (xs ys) in
theorem levenshtein_comm : levenshtein xs ys = levenshtein ys xs :=
  le_antisymm (aligned_levenshtein ys xs).symm.levenshtein_le
    (aligned_levenshtein xs ys).symm.levenshtein_le

theorem levenshtein_reverse : levenshtein xs.reverse ys.reverse = levenshtein xs ys := by
  refine le_antisymm (aligned_levenshtein xs ys).reverse.levenshtein_le ?_
  simpa using (aligned_levenshtein xs.reverse ys.reverse).reverse.levenshtein_le

variable (xs ys) in
theorem length_le_levenshtein : xs.length ≤ ys.length + levenshtein xs ys :=
  (aligned_levenshtein xs ys).length_le

theorem levenshtein_le_max (xs ys : List α) : levenshtein xs ys ≤ max xs.length ys.length := by
  fun_induction levenshtein xs ys with
  | case1 ys => exact le_max_right _ _
  | case2 x xs => exact le_max_left _ _
  | case3 x xs y ys ih₁ ih₂ ih₃ =>
    have hcost : (if x = y then 0 else 1) ≤ 1 := by split <;> omega
    simp only [List.length_cons]
    omega

variable (xs ys) in
theorem levenshtein_map_le {β : Type} [DecidableEq β] (f : α → β) :
    levenshtein (xs.map f) (ys.map f) ≤ levenshtein xs ys :=
  ((aligned_levenshtein xs ys).map f).levenshtein_le

@[simp] theorem levenshtein_nil_left : levenshtein [] ys = ys.length := by rw [levenshtein]

@[simp] theorem levenshtein_nil_right : levenshtein xs [] = xs.length := by
  rw [levenshtein_comm, levenshtein_nil_left]

theorem levenshtein_concat (x y : α) : levenshtein (xs ++ [x]) (ys ++ [y]) =
    min (min (levenshtein xs ys + if x = y then 0 else 1) (levenshtein (xs ++ [x]) ys + 1))
      (levenshtein xs (ys ++ [y]) + 1) := by
  rw [← levenshtein_reverse, List.reverse_append, List.reverse_append, List.reverse_singleton,
    List.reverse_singleton, List.singleton_append, List.singleton_append, levenshtein,
    levenshtein_reverse, min_right_comm]
  have hleft : levenshtein (x :: xs.reverse) ys.reverse = levenshtein (xs ++ [x]) ys := by
    rw [← levenshtein_reverse, List.reverse_cons, List.reverse_reverse, List.reverse_reverse]
  have hright : levenshtein xs.reverse (y :: ys.reverse) = levenshtein xs (ys ++ [y]) := by
    rw [← levenshtein_reverse, List.reverse_cons, List.reverse_reverse, List.reverse_reverse]
  rw [hleft, hright]

variable (xs ys) in
theorem exists_take_levenshtein_le (j : Nat) :
    ∃ i ≤ xs.length, levenshtein (xs.take i) (ys.take j) ≤ levenshtein xs ys := by
  obtain ⟨us, ws, k, l, hxs, hn, hu, -⟩ :=
    (aligned_levenshtein xs ys).split (List.take_append_drop j ys).symm
  refine ⟨us.length, by simp [hxs], ?_⟩
  have htake : xs.take us.length = us := by rw [hxs, List.take_left]
  rw [htake]
  have hle := hu.levenshtein_le
  omega

end Distance

section Windows

def windowAt (n : Nat) (xs : List α) (i : Nat) : List α := (xs.drop i).take n

def windows (n : Nat) (xs : List α) : List (List α) :=
  (List.range (xs.length + 1 - n)).map (windowAt n xs)

variable {n : Nat} {xs ys w : List α}

omit [DecidableEq α] in
theorem mem_windows : w ∈ windows n xs ↔ ∃ i, i + n ≤ xs.length ∧ windowAt n xs i = w := by
  simp only [windows, List.mem_map, List.mem_range]
  refine exists_congr fun i => and_congr_left fun _ => ?_
  omega

omit [DecidableEq α] in
theorem mem_windows_iff : w ∈ windows n xs ↔ w <:+: xs ∧ w.length = n := by
  rw [mem_windows]
  constructor
  · rintro ⟨i, hi, rfl⟩
    have hfront : windowAt n xs i <+: xs.drop i := List.take_prefix n _
    refine ⟨hfront.isInfix.trans (xs.drop_suffix i).isInfix, ?_⟩
    rw [windowAt, List.length_take, List.length_drop]
    omega
  · rintro ⟨⟨before, after, rfl⟩, rfl⟩
    refine ⟨before.length, by simp only [List.length_append]; omega, ?_⟩
    rw [windowAt, List.append_assoc, List.drop_left, List.take_left]

omit [DecidableEq α] in
theorem windowAt_infix_right {before after : List α} {i : Nat} (hi : before.length ≤ i) :
    windowAt n (before ++ after) i <:+: after := by
  rw [windowAt, List.drop_append, List.drop_of_length_le hi, List.nil_append]
  have hfront : (after.drop (i - before.length)).take n <+: after.drop (i - before.length) :=
    List.take_prefix n _
  exact hfront.isInfix.trans (after.drop_suffix _).isInfix

omit [DecidableEq α] in
theorem windowAt_infix_left {before after : List α} {i : Nat} (hi : i + n ≤ before.length) :
    windowAt n (before ++ after) i <:+: before := by
  rw [windowAt, List.drop_append_of_le_length (by omega),
    List.take_append_of_le_length (by rw [List.length_drop]; omega)]
  have hfront : (before.drop i).take n <+: before.drop i := List.take_prefix n _
  exact hfront.isInfix.trans (before.drop_suffix i).isInfix

def Edit (xs ys : List α) : Prop :=
  ∃ before old new after, xs = before ++ (old ++ after) ∧ ys = before ++ (new ++ after) ∧
    old.length ≤ 1 ∧ new.length ≤ 1

omit [DecidableEq α] in
theorem Edit.wrap {xs ys : List α} (h : Edit xs ys) (us vs : List α) :
    Edit (us ++ xs ++ vs) (us ++ ys ++ vs) := by
  obtain ⟨before, old, new, after, rfl, rfl, hold, hnew⟩ := h
  exact ⟨us ++ before, old, new, after ++ vs, by simp, by simp, hold, hnew⟩

theorem Edit.card_lost_le {xs ys : List α} (h : Edit xs ys) (hn : 1 ≤ n) :
    ((windows n xs).toFinset \ (windows n ys).toFinset).card ≤ n := by
  obtain ⟨before, old, new, after, rfl, rfl, hold, -⟩ := h
  have hsub : (windows n (before ++ (old ++ after))).toFinset \
        (windows n (before ++ (new ++ after))).toFinset ⊆
      (Finset.Ico (before.length + 1 - n) (before.length + old.length)).image
        (windowAt n (before ++ (old ++ after))) := by
    intro w hw
    simp only [Finset.mem_sdiff, List.mem_toFinset, Finset.mem_image, Finset.mem_Ico] at hw ⊢
    obtain ⟨hmem, hlost⟩ := hw
    have hlen := (mem_windows_iff.mp hmem).2
    obtain ⟨i, hi, rfl⟩ := mem_windows.mp hmem
    refine ⟨i, ⟨?_, ?_⟩, rfl⟩
    · by_contra hlow
      have hin : windowAt n (before ++ (old ++ after)) i <:+: before :=
        windowAt_infix_left (by omega)
      exact hlost (mem_windows_iff.mpr
        ⟨hin.trans (List.prefix_append _ _).isInfix, hlen⟩)
    · by_contra hhigh
      have hin : windowAt n (before ++ (old ++ after)) i <:+: after := by
        rw [← List.append_assoc]
        exact windowAt_infix_right (by rw [List.length_append]; omega)
      have hafter : after <:+: before ++ (new ++ after) := ⟨before ++ new, [], by simp⟩
      exact hlost (mem_windows_iff.mpr ⟨hin.trans hafter, hlen⟩)
  calc _ ≤ _ := Finset.card_le_card hsub
    _ ≤ _ := Finset.card_image_le
    _ ≤ n := by
      rw [Nat.card_Ico]
      omega

-- A way of cost `k` is `k` edits, one after the other.
inductive Edits : List α → List α → Nat → Prop
  | refl (xs : List α) : Edits xs xs 0
  | step {xs ys zs : List α} {k : Nat} : Edit xs ys → Edits ys zs k → Edits xs zs (k + 1)

omit [DecidableEq α] in
theorem Edits.wrap {xs ys : List α} {k : Nat} (h : Edits xs ys k) (us vs : List α) :
    Edits (us ++ xs ++ vs) (us ++ ys ++ vs) k := by
  induction h with
  | refl xs => exact .refl _
  | step h _ ih => exact .step (h.wrap us vs) ih

omit [DecidableEq α] in
theorem Aligned.edits {xs ys : List α} {k : Nat} (h : Aligned xs ys k) : Edits xs ys k := by
  induction h with
  | nil => exact .refl []
  | keep x _ ih => simpa using ih.wrap [x] []
  | @replace xs ys n x y _ ih =>
    refine .step ⟨[], [x], [y], xs, rfl, rfl, le_rfl, le_rfl⟩ ?_
    simpa using ih.wrap [y] []
  | @delete xs ys n x _ ih =>
    exact .step ⟨[], [x], [], xs, rfl, rfl, le_rfl, Nat.zero_le _⟩ ih
  | @insert xs ys n y _ ih =>
    refine .step ⟨[], [], [y], xs, rfl, rfl, Nat.zero_le _, le_rfl⟩ ?_
    simpa using ih.wrap [y] []

theorem Edits.card_lost_le {xs ys : List α} {k : Nat} (h : Edits xs ys k) (hn : 1 ≤ n) :
    ((windows n xs).toFinset \ (windows n ys).toFinset).card ≤ n * k := by
  induction h with
  | refl xs => simp
  | @step xs ys zs k h _ ih =>
    have hsub : (windows n xs).toFinset \ (windows n zs).toFinset ⊆
        ((windows n xs).toFinset \ (windows n ys).toFinset) ∪
          ((windows n ys).toFinset \ (windows n zs).toFinset) := by
      intro w hw
      simp only [Finset.mem_sdiff, Finset.mem_union] at hw ⊢
      tauto
    calc _ ≤ _ := Finset.card_le_card hsub
      _ ≤ _ := Finset.card_union_le _ _
      _ ≤ n + n * k := Nat.add_le_add (h.card_lost_le hn) ih
      _ = n * (k + 1) := by ring

-- The lemma of the grams: with a margin of any elements on both sides, two lists
-- at distance `k` share all but `n * k` of the distinct windows of the first.
theorem card_windows_le (hn : 1 ≤ n) (xs ys us vs : List α) :
    (windows n (us ++ xs ++ vs)).toFinset.card ≤
      ((windows n (us ++ xs ++ vs)).toFinset ∩ (windows n (us ++ ys ++ vs)).toFinset).card +
        n * levenshtein xs ys := by
  rw [← Finset.card_inter_add_card_sdiff _ (windows n (us ++ ys ++ vs)).toFinset]
  exact Nat.add_le_add_left (((aligned_levenshtein xs ys).edits.wrap us vs).card_lost_le hn) _

end Windows

end WaveDb.Lib
