import WaveDb.Storage.Alloc.Extents

namespace WaveDb.Storage

open WaveDb.Lib

structure Generation (set : List Run) : Prop where
  sorted : Ascending Span.start set
  apart : set.Pairwise Span.Apart
  pos : ∀ p ∈ set, 0 < p.count

theorem Generation.nil : Generation [] := ⟨.nil, .nil, by simp⟩

-- The single probe of `covers` decides overlap with any run of the set.
theorem Generation.covers_iff {set : List Run} (h : Generation set) {run : Run} :
    BlockAllocator.covers set run = true ↔ ∃ p ∈ set, ¬p.Apart run := by
  have hsorted : Ascending Span.start (below Span.start run.stop set) :=
    h.sorted.sublist List.filter_sublist
  rw [BlockAllocator.covers]
  cases hlast : (below Span.start run.stop set).getLast? with
  | none =>
    rw [List.getLast?_eq_none_iff] at hlast
    refine iff_of_false (by simp) fun ⟨p, hp, hover⟩ => ?_
    have hbelow : p ∉ below Span.start run.stop set := by simp [hlast]
    have hstart : ¬p.start < run.stop := fun hlt => hbelow (mem_below.mpr ⟨hp, hlt⟩)
    exact hover (.inr (not_lt.mp hstart))
  | some l =>
    obtain ⟨front, hfront⟩ := List.getLast?_eq_some_iff.mp hlast
    obtain ⟨hl, hlstart⟩ := mem_below.mp (List.mem_of_getLast? hlast)
    rw [Option.any_some, decide_eq_true_iff]
    constructor
    · intro hstop
      refine ⟨l, hl, ?_⟩
      simp only [Span.Apart, not_or]
      omega
    · rintro ⟨p, hp, hover⟩
      simp only [Span.Apart, not_or, not_le] at hover
      have hmem : p ∈ below Span.start run.stop set := mem_below.mpr ⟨hp, hover.2⟩
      rw [hfront] at hmem hsorted
      rcases List.mem_append.mp hmem with hmem | hmem
      · -- An earlier run ends before the last one starts.
        have hlt := hsorted.append.2.2 p hmem l (List.mem_singleton_self l)
        have hapart := h.apart.forall hp hl (by rintro rfl; exact lt_irrefl _ hlt)
        have hpos := h.pos l hl
        simp only [Span.Apart, Span.stop] at *
        omega
      · rw [← List.mem_singleton.mp hmem]
        exact hover.1

namespace BlockAllocator

-- With `live` as the runs handed out and not freed, every block of the file is
-- in one run: live, free or deferred. No protected block is free.
structure Sound (a : BlockAllocator) (live : List Run) : Prop where
  extents : a.Extents
  tiles : Tiles a.totalBlocks (live ++ (a.byPos ++ a.pending))
  newest : Generation a.protected
  older : Generation a.previous
  guarded : ∀ p ∈ a.protected ++ a.previous, p.stop ≤ a.totalBlocks ∧ ∀ e ∈ a.byPos, p.Apart e

variable {a : BlockAllocator} {live : List Run}

theorem Sound.perm {live' : List Run} (h : a.Sound live) (hp : live.Perm live') : a.Sound live' :=
  ⟨h.extents, h.tiles.perm (hp.append_right _), h.newest, h.older, h.guarded⟩

theorem Sound.guard_pos (h : a.Sound live) {p : Run} (hp : p ∈ a.protected ++ a.previous) :
    0 < p.count := by
  rcases List.mem_append.mp hp with hp | hp
  · exact h.newest.pos p hp
  · exact h.older.pos p hp

theorem perm_front {e : Run} {xs ys pending : List Run} (h : xs.Perm (e :: ys)) :
    (live ++ (xs ++ pending)).Perm (e :: (live ++ (ys ++ pending))) :=
  ((h.append_right pending).append_left live).trans List.perm_middle

theorem isProtected_eq_false (h : a.Sound live) {run : Run} :
    a.isProtected run = false ↔ ∀ p ∈ a.protected ++ a.previous, p.Apart run := by
  rw [isProtected, Bool.or_eq_false_iff, ← Bool.not_eq_true, ← Bool.not_eq_true,
    h.newest.covers_iff, h.older.covers_iff]
  simp only [not_exists, not_and, not_not, List.mem_append, or_imp, forall_and]

theorem Sound.take_extent (h : a.Sound live) {e : Run} (he : e ∈ a.byPos) {n : Nat} (hn : 0 < n)
    (hle : n ≤ e.count) :
    Sound (if 0 < e.count - n then
        (a.removeExtent e.start e.count).insertExtent (e.start + n) (e.count - n)
      else a.removeExtent e.start e.count) (⟨e.start, n⟩ :: live) := by
  obtain ⟨hext, hperm⟩ := removeExtent_extents h.extents he
  have htiles : Tiles a.totalBlocks (e :: (live ++ ((a.removeExtent e.start e.count).byPos ++
      a.pending))) := by
    exact h.tiles.perm (perm_front hperm)
  have hguard : ∀ p ∈ a.protected ++ a.previous, p.stop ≤ a.totalBlocks ∧
      ∀ e' ∈ (a.removeExtent e.start e.count).byPos, p.Apart e' := fun p hp =>
    ⟨(h.guarded p hp).1, fun e' he' => (h.guarded p hp).2 e' (hperm.mem_iff.mpr (by simp [he']))⟩
  split
  · next hleft =>
    have hclear : ∀ e' ∈ (a.removeExtent e.start e.count).byPos,
        Clear ⟨e.start + n, e.count - n⟩ e' := by
      intro e' he'
      have := (List.pairwise_cons.mp (h.extents.clear.perm hperm fun hc => hc.symm)).1 e' he'
      simp only [Clear, Span.stop] at *
      omega
    obtain ⟨hext', hperm'⟩ := insertExtent_extents hext hclear
    refine ⟨hext', ?_, h.newest, h.older, fun p hp => ⟨(hguard p hp).1, fun e' he' => ?_⟩⟩
    · have hsplit : e = ⟨e.start, n + (e.count - n)⟩ := by
        rw [Nat.add_sub_cancel' hle]
      rw [hsplit, ← Tiles.merge_iff hn hleft] at htiles
      exact htiles.perm (List.Perm.cons _ (perm_front hperm').symm)
    · rcases List.mem_cons.mp (hperm'.mem_iff.mp he') with rfl | he'
      · have := (h.guarded p hp).2 e he
        simp only [Span.Apart, Span.stop] at *
        omega
      · exact (hguard p hp).2 e' he'
  · next hleft =>
    have hwhole : e = ⟨e.start, n⟩ := by
      have : e.count = n := by omega
      rw [← this]
    exact ⟨hext, hwhole ▸ htiles, h.newest, h.older, hguard⟩

theorem Sound.grow (h : a.Sound live) {n : Nat} (hn : 0 < n) :
    Sound { a with totalBlocks := a.totalBlocks + n } (⟨a.totalBlocks, n⟩ :: live) :=
  ⟨h.extents.congr rfl rfl, h.tiles.grow hn,
    h.newest, h.older, fun p hp => ⟨(h.guarded p hp).1.trans (Nat.le_add_right _ _),
      (h.guarded p hp).2⟩⟩

theorem lex_le_sizeKey {n : Nat} {e : Run} : toLex (n, 0) ≤ sizeKey e ↔ n ≤ e.count := by
  rw [sizeKey, Prod.Lex.toLex_le_toLex]
  simp only
  omega

theorem alloc_cases (h : a.Extents) (n : Nat) :
    (∃ e ∈ a.byPos, n ≤ e.count ∧ (∀ e' ∈ a.byPos, n ≤ e'.count → e.count ≤ e'.count) ∧
      a.alloc n = (⟨e.start, n⟩, if 0 < e.count - n then
          (a.removeExtent e.start e.count).insertExtent (e.start + n) (e.count - n)
        else a.removeExtent e.start e.count)) ∨
    ((∀ e ∈ a.byPos, e.count < n) ∧
      a.alloc n = (⟨a.totalBlocks, n⟩, { a with totalBlocks := a.totalBlocks + n })) := by
  rw [alloc]
  cases hfind : a.bySize.find? fun e => decide (toLex (n, 0) ≤ sizeKey e) with
  | none =>
    refine .inr ⟨fun e he => ?_, rfl⟩
    have := List.find?_eq_none.mp hfind e ((h.same e).mpr he)
    rw [decide_eq_true_iff, lex_le_sizeKey] at this
    omega
  | some e =>
    obtain ⟨hle, front, back, hsplit, hfront⟩ := List.find?_eq_some_iff_append.mp hfind
    rw [decide_eq_true_iff, lex_le_sizeKey] at hle
    have hmem : e ∈ a.bySize := by simp [hsplit]
    refine .inl ⟨e, (h.same e).mp hmem, hle, fun e' he' hle' => ?_, rfl⟩
    -- An extent ordered before `e` is too small.
    have hmem' := (h.same e').mpr he'
    have hsorted := h.bySize
    rw [hsplit] at hmem' hsorted
    rcases List.mem_append.mp hmem' with hf | hb
    · have := hfront e' hf
      rw [Bool.not_eq_true', decide_eq_false_iff_not, lex_le_sizeKey] at this
      exact absurd hle' this
    · rcases List.mem_cons.mp hb with rfl | hb
      · exact le_rfl
      · have hlt := (List.pairwise_cons.mp hsorted.append.2.1).1 e' hb
        rw [sizeKey, sizeKey, Prod.Lex.toLex_lt_toLex] at hlt
        simp only at hlt
        omega

theorem alloc_sound (h : a.Sound live) {n : Nat} (hn : 0 < n) :
    (a.alloc n).2.Sound ((a.alloc n).1 :: live) ∧
      ∀ p ∈ a.protected ++ a.previous, p.Apart (a.alloc n).1 := by
  rcases alloc_cases h.extents n with ⟨e, he, hle, -, heq⟩ | ⟨-, heq⟩
  · rw [heq]
    refine ⟨h.take_extent he hn hle, fun p hp => ?_⟩
    have := (h.guarded p hp).2 e he
    simp only [Span.Apart, Span.stop] at *
    omega
  · rw [heq]
    exact ⟨h.grow hn, fun p hp => .inl (h.guarded p hp).1⟩

theorem Sound.drop_tail (h : a.Sound live) {e : Run} (he : e ∈ a.byPos)
    (hstop : e.stop = a.totalBlocks) :
    Sound { a.removeExtent e.start e.count with totalBlocks := e.start } live := by
  obtain ⟨hext, hperm⟩ := removeExtent_extents h.extents he
  refine ⟨hext.congr rfl rfl,
    (h.tiles.perm (perm_front hperm)).shrink hstop, h.newest, h.older, fun p hp => ⟨?_, ?_⟩⟩
  · have hapart := (h.guarded p hp).2 e he
    have hle := (h.guarded p hp).1
    have hpos := h.guard_pos hp
    simp only [Span.Apart, Span.stop] at *
    omega
  · intro e' he'
    exact (h.guarded p hp).2 e' (hperm.mem_iff.mpr (List.mem_cons_of_mem _ he'))

theorem allocTail_sound (h : a.Sound live) {n : Nat} (hn : 0 < n) :
    (a.allocTail n).2.Sound ((a.allocTail n).1 :: live) ∧
      ∀ p ∈ a.protected ++ a.previous, p.Apart (a.allocTail n).1 := by
  have hgrow : (a.growTail n).2.Sound ((a.growTail n).1 :: live) ∧
      ∀ p ∈ a.protected ++ a.previous, p.Apart (a.growTail n).1 :=
    ⟨h.grow hn, fun p hp => .inl (h.guarded p hp).1⟩
  rw [allocTail]
  cases hlast : a.byPos.getLast? with
  | none => exact hgrow
  | some e =>
    have he := List.mem_of_getLast? hlast
    by_cases htail : e.stop = a.totalBlocks ∧ a.isProtected ⟨e.start, min n e.count⟩ = false
    · simp only [htail, and_self, if_true]
      have hprot : ∀ p ∈ a.protected ++ a.previous, p.Apart ⟨e.start, n⟩ := by
        intro p hp
        have := (h.guarded p hp).2 e he
        have := (h.guarded p hp).1
        have := h.guard_pos hp
        simp only [Span.Apart, Span.stop] at *
        omega
      by_cases hlt : n < e.count
      · have htake := h.take_extent he hn hlt.le
        rw [if_pos (by omega)] at htake
        rw [if_pos hlt]
        exact ⟨htake, hprot⟩
      · rw [if_neg hlt]
        exact ⟨(h.drop_tail he htail.1).grow hn, hprot⟩
    · simp only [htail, if_false]
      exact hgrow

theorem truncate_sound (h : a.Sound live) : a.truncate.2.Sound live := by
  rw [truncate]
  cases hlast : a.byPos.getLast? with
  | none => exact h
  | some e =>
    by_cases hstop : e.stop = a.totalBlocks
    · simp only [hstop, if_true]
      exact h.drop_tail (List.mem_of_getLast? hlast) hstop
    · simp only [hstop, if_false]
      exact h

end BlockAllocator

end WaveDb.Storage
