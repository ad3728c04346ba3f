import WaveDb.Index.BpTree.Search
import WaveDb.Collection.Catalog

-- Searches of the trees a collection keeps, by both kinds of key.
namespace WaveDb.Collection

open WaveDb.Lib WaveDb.Core WaveDb.Index

-- Whether some key that starts as given is not below `x`.
def lePrefixMax : List UInt8 → List UInt8 → Bool
  | a :: x, b :: start => if a ≠ b then a < b else lePrefixMax x start
  | _, _ => true

instance : NodeKey (SecKey (List UInt8)) where
  inBound k bound := bound.contains k.field
  mayIntersect bound min max :=
    match bound with
    | .all => true
    | .exact key => max.all (key ≤ ·.field) && min.all (·.field ≤ key)
    | .range lo hi => max.all (lo ≤ ·.field) && min.all (·.field < hi)
    | .keyPrefix start => max.all (start ≤ ·.field) && min.all (lePrefixMax ·.field start)

theorem field_le_of_le {F : Type} [LinearOrder F] {a b : SecKey F} (h : a ≤ b) :
    a.field ≤ b.field := by
  have hpair : a.asPair ≤ b.asPair := h
  rw [SecKey.asPair, SecKey.asPair, Prod.Lex.toLex_le_toLex] at hpair
  rcases hpair with hlt | ⟨heq, -⟩
  · exact hlt.le
  · exact heq.le

theorem le_append_self (start rest : List UInt8) : start ≤ start ++ rest := by
  rw [← not_lt]
  induction start with
  | nil => exact List.not_lt_nil rest
  | cons a start ih =>
    rw [List.cons_append, List.cons_lt_cons_iff]
    rintro (hlt | ⟨-, hlt⟩)
    · exact lt_irrefl _ hlt
    · exact ih hlt

theorem lePrefixMax_of_le {x start : List UInt8} (rest : List UInt8) (h : x ≤ start ++ rest) :
    lePrefixMax x start = true := by
  rw [← not_lt] at h
  induction start generalizing x with
  | nil => cases x <;> rfl
  | cons b start ih =>
    cases x with
    | nil => rfl
    | cons a x =>
      rw [List.cons_append, List.cons_lt_cons_iff, not_or] at h
      by_cases hab : a = b
      · subst hab
        simpa [lePrefixMax] using ih fun hlt => h.2 ⟨rfl, hlt⟩
      · have hlt : a < b := lt_of_le_of_ne (not_lt.mp h.1) hab
        simp [lePrefixMax, hab, hlt]

theorem secKey_conservative :
    NodeKey.Conservative (SecKey (List UInt8)) fun _ => True := by
  intro bound min max k _ hmin hmax hin
  have hlo : ∀ m ∈ min, m.field ≤ k.field := fun m hm => field_le_of_le (hmin m hm)
  have hhi : ∀ m ∈ max, k.field ≤ m.field := fun m hm => field_le_of_le (hmax m hm).le
  cases bound with
  | all => rfl
  | exact key =>
    obtain rfl : k.field = key := by simpa [NodeKey.inBound, Bound.contains] using hin
    simp only [NodeKey.mayIntersect, Bool.and_eq_true, Option.all_eq_true, decide_eq_true_eq]
    exact ⟨hhi, hlo⟩
  | range lo hi =>
    obtain ⟨hge, hlt⟩ : lo ≤ k.field ∧ k.field < hi := by
      simpa [NodeKey.inBound, Bound.contains] using hin
    simp only [NodeKey.mayIntersect, Bool.and_eq_true, Option.all_eq_true, decide_eq_true_eq]
    exact ⟨fun m hm => hge.trans (hhi m hm), fun m hm => (hlo m hm).trans_lt hlt⟩
  | keyPrefix start =>
    obtain ⟨rest, hrest⟩ : start <+: k.field := by
      simpa [NodeKey.inBound, Bound.contains] using hin
    simp only [NodeKey.mayIntersect, Bool.and_eq_true, Option.all_eq_true, decide_eq_true_eq]
    refine ⟨fun m hm => ?_, fun m hm => lePrefixMax_of_le rest ?_⟩
    · exact (le_append_self start rest).trans (hrest ▸ hhi m hm)
    · rw [hrest]
      exact hlo m hm

section Search

variable {U V : Type} [NodeCodec V LocalId] [NodeCodec U (SecKey (List UInt8))] [DecidableEq V]
  [DecidableEq U] {tenant leafCap internalCap : Nat}

-- A search of a tree of either kind yields the keys in the bound, each once and in
-- order. Leaves hold at least a key, and ids have 64-bit keys.
theorem search_keys_exact (hleaf : 1 ≤ leafCap) :
    (∀ (t : BpTree) (s : Store V) (S : Set LocalId), Run V tenant leafCap internalCap t s S →
      (∀ k ∈ S, k.key < 2 ^ 64) → ∀ (bound : Bound) (w : World V), w.store = s →
        ∃ found : List LocalId, found.Pairwise (· < ·) ∧
          (∀ k, k ∈ found ↔ k ∈ S ∧ NodeKey.inBound k bound = true) ∧
          Engine.Returns (fun fuel => t.searchKeys bound fuel) w (found.map Except.ok) w) ∧
    (∀ (t : BpTree) (s : Store U) (S : Set (SecKey (List UInt8))),
      Run U tenant leafCap internalCap t s S → ∀ (bound : Bound) (w : World U), w.store = s →
        ∃ found : List (SecKey (List UInt8)), found.Pairwise (· < ·) ∧
          (∀ k, k ∈ found ↔ k ∈ S ∧ NodeKey.inBound k bound = true) ∧
          Engine.Returns (fun fuel => t.searchKeys bound fuel) w (found.map Except.ok) w) :=
  ⟨fun _ _ _ h hvalid bound _ hw => h.search localId_conservative hleaf hvalid bound hw,
    fun _ _ _ h bound _ hw =>
      h.search secKey_conservative hleaf (fun _ _ => trivial) bound hw⟩

end Search

-- A tree with one key per leaf and no room for separators.
theorem search_keys_exact_sample : ∃ (t : BpTree) (w : World (NodeBody LocalId)),
    Run (NodeBody LocalId) 7 1 0 t w.store ({⟨1, 0⟩} : Set LocalId) ∧
      Engine.Returns (fun fuel => t.searchKeys (.keyPrefix [0, 0]) fuel) w
        [Except.ok (⟨1, 0⟩ : LocalId)] w := by
  have hcreate : Run (K := LocalId) (NodeBody LocalId) 7 1 0 ⟨⟨0, nodeLower⟩, 7, 1, 0⟩
      sampleStore ∅ := .create (w := ⟨fun _ => none, fun n => n, 0⟩) rfl rfl rfl
  have hfresh : Unused 7 [nodeLower] ⟨sampleStore, fun n => n + 1, 0⟩ := by
    refine ⟨fun a b h => by simpa using h, fun n lower _ => ?_⟩
    have hne : (⟨n + 1, 7, lower⟩ : Core.Id) ≠ ⟨0, 7, nodeLower⟩ := fun h =>
      Nat.succ_ne_zero n (congrArg Core.Id.key h)
    change sampleStore ⟨n + 1, 7, lower⟩ = none
    rw [sampleStore, Function.update_of_ne hne]
  obtain ⟨-, n, T, hT, -⟩ := hcreate.ordered le_rfl
  obtain ⟨n', T', batch, w', hrun, hplan, -⟩ := planInsert_sorted le_rfl hT.root hT.sorted ⟨1, 0⟩
    hT.only.1 hT.nodup hfresh (List.mem_singleton_self _)
  have hinsert := Run.insert ⟨1, 0⟩ hcreate hfresh hrun hplan.applies
  rw [insert_empty_eq] at hinsert
  obtain ⟨found, hsorted, hfound, hsearch⟩ :=
    (search_keys_exact (U := NodeBody (SecKey (List UInt8))) le_rfl).1 _ _ _ hinsert
      (by simp) (.keyPrefix [0, 0]) ⟨_, fun n => n, 0⟩ rfl
  have hmem : ∀ k, k ∈ found ↔ k ∈ [(⟨1, 0⟩ : LocalId)] := by
    intro k
    rw [hfound, Set.mem_singleton_iff, List.mem_singleton, and_iff_left_iff_imp]
    rintro rfl
    decide
  have hone : found = [⟨1, 0⟩] := List.perm_singleton.mp
    ((List.perm_ext_iff_of_nodup (hsorted.imp ne_of_lt) (List.nodup_singleton _)).mpr hmem)
  subst hone
  exact ⟨_, _, hinsert, hsearch⟩

end WaveDb.Collection
