import WaveDb.Storage.Alloc.Spec

namespace WaveDb.Storage

open WaveDb.Lib

namespace BlockAllocator

variable {a : BlockAllocator} {live : List Run} {run : Run}

section Free

theorem Sound.apart_extent (h : a.Sound (run :: live)) {e : Run} (he : e ∈ a.byPos) :
    run.Apart e :=
  (List.pairwise_cons.mp h.tiles.apart).1 e (by simp [he])

theorem Sound.join (h : a.Sound (run :: live)) {e joined : Run} (he : e ∈ a.byPos)
    (hjoin : ∀ {rest}, Tiles a.totalBlocks (e :: run :: rest) →
      Tiles a.totalBlocks (joined :: rest)) :
    (a.removeExtent e.start e.count).Sound (joined :: live) := by
  obtain ⟨hext, hperm⟩ := removeExtent_extents h.extents he
  refine ⟨hext, hjoin (h.tiles.perm (perm_front hperm)), h.newest, h.older, fun p hp => ?_⟩
  exact ⟨(h.guarded p hp).1, fun e' he' => (h.guarded p hp).2 e' (hperm.mem_iff.mpr
    (List.mem_cons_of_mem _ he'))⟩

theorem Sound.join_before (h : a.Sound (run :: live)) {e : Run} (he : e ∈ a.byPos)
    (hstop : e.stop = run.start) :
    (a.removeExtent e.start e.count).Sound (⟨e.start, run.count + e.count⟩ :: live) := by
  refine h.join he fun htiles => ?_
  have hrun : run = ⟨e.start + e.count, run.count⟩ := by
    rw [← Span.stop, hstop]
  rw [Nat.add_comm, ← Tiles.merge_iff (htiles.pos e (by simp)) (htiles.pos run (by simp)), ← hrun]
  exact htiles

theorem Sound.join_after (h : a.Sound (run :: live)) {e : Run} (he : e ∈ a.byPos)
    (hstart : e.start = run.stop) :
    (a.removeExtent e.start e.count).Sound (⟨run.start, run.count + e.count⟩ :: live) := by
  refine h.join he fun htiles => ?_
  have hextent : e = ⟨run.start + run.count, e.count⟩ := by
    rw [← Span.stop, ← hstart]
  rw [← Tiles.merge_iff (htiles.pos run (by simp)) (htiles.pos e (by simp)), ← hextent]
  exact htiles.perm (List.Perm.swap _ _ _)

theorem Sound.give_back (h : a.Sound (run :: live))
    (hprot : ∀ p ∈ a.protected ++ a.previous, p.Apart run)
    (hbefore : ∀ e ∈ a.byPos, e.stop ≠ run.start) (hafter : ∀ e ∈ a.byPos, e.start ≠ run.stop) :
    (a.insertExtent run.start run.count).Sound live := by
  have hclear : ∀ e ∈ a.byPos, Clear run e := by
    intro e he
    have := h.apart_extent he
    have := hbefore e he
    have := hafter e he
    simp only [Clear, Span.Apart] at *
    omega
  obtain ⟨hext, hperm⟩ := insertExtent_extents h.extents hclear
  refine ⟨hext, h.tiles.perm (perm_front hperm).symm, h.newest, h.older, fun p hp => ?_⟩
  refine ⟨(h.guarded p hp).1, fun e he => ?_⟩
  rcases List.mem_cons.mp (hperm.mem_iff.mp he) with rfl | he
  · exact hprot p hp
  · exact (h.guarded p hp).2 e he

theorem joinBefore_cases (h : a.Sound (run :: live)) :
    (a.joinBefore run = (run, a) ∧ ∀ e ∈ a.byPos, e.stop ≠ run.start) ∨
    ∃ e ∈ a.byPos, e.stop = run.start ∧
      a.joinBefore run = (⟨e.start, run.count + e.count⟩, a.removeExtent e.start e.count) := by
  have hpos : ∀ e ∈ a.byPos, 0 < e.count := fun e he => h.tiles.pos e (by simp [he])
  rw [joinBefore]
  cases hlast : (below Span.start run.start a.byPos).getLast? with
  | none =>
    refine .inl ⟨rfl, fun e he => ?_⟩
    rw [List.getLast?_eq_none_iff] at hlast
    have hbelow : e ∉ below Span.start run.start a.byPos := by simp [hlast]
    rw [mem_below, not_and] at hbelow
    have := hbelow he
    have := hpos e he
    simp only [Span.stop] at *
    omega
  | some p =>
    obtain ⟨hp, hplt⟩ := mem_below.mp (List.mem_of_getLast? hlast)
    by_cases hstop : p.stop = run.start
    · exact .inr ⟨p, hp, hstop, if_pos hstop⟩
    · refine .inl ⟨if_neg hstop, fun e he => ?_⟩
      by_cases hlt : e.start < run.start
      · rcases h.extents.stop_le_of_below hlast he hlt with rfl | hlt'
        · exact hstop
        · omega
      · have := hpos e he
        simp only [Span.stop]
        omega

variable (a run) in
theorem joinAfter_cases : (a.joinAfter run = (run, a) ∧ ∀ e ∈ a.byPos, e.start ≠ run.stop) ∨
    ∃ e ∈ a.byPos, e.start = run.stop ∧
      a.joinAfter run = (⟨run.start, run.count + e.count⟩, a.removeExtent e.start e.count) := by
  rw [joinAfter]
  cases hfind : a.byPos.find? fun e => e.start = run.stop with
  | none =>
    refine .inl ⟨rfl, fun e he => ?_⟩
    simpa using List.find?_eq_none.mp hfind e he
  | some e =>
    exact .inr ⟨e, List.mem_of_find?_eq_some hfind, by simpa using List.find?_some hfind, rfl⟩

theorem joinBefore_sound (h : a.Sound (run :: live))
    (hprot : ∀ p ∈ a.protected ++ a.previous, p.Apart run) :
    (a.joinBefore run).2.Sound ((a.joinBefore run).1 :: live) ∧
      (∀ p ∈ (a.joinBefore run).2.protected ++ (a.joinBefore run).2.previous,
        p.Apart (a.joinBefore run).1) ∧
      ∀ e ∈ (a.joinBefore run).2.byPos, e.stop ≠ (a.joinBefore run).1.start := by
  rcases joinBefore_cases h with ⟨heq, hbefore⟩ | ⟨e, he, hstop, heq⟩
  · rw [heq]
    exact ⟨h, hprot, hbefore⟩
  · rw [heq]
    refine ⟨h.join_before he hstop, fun p hp => ?_, fun e' he' => ?_⟩
    · have := hprot p hp
      have := (h.guarded p hp).2 e he
      have := h.guard_pos hp
      simp only [Span.Apart, Span.stop] at *
      omega
    · obtain ⟨-, hperm⟩ := removeExtent_extents h.extents he
      have := (List.pairwise_cons.mp (h.extents.clear.perm hperm fun hc => hc.symm)).1 e' he'
      simp only [Clear] at this
      have := h.tiles.pos e' (by simp [hperm.mem_iff.mpr (List.mem_cons_of_mem e he')])
      simp only [Span.stop] at *
      omega

theorem free_sound (h : a.Sound (run :: live)) : (a.free run).Sound live := by
  have hrun : run.count ≠ 0 := (h.tiles.pos run (by simp)).ne'
  rw [free, if_neg hrun]
  cases hprot : a.isProtected run with
  | true =>
    refine ⟨h.extents.congr rfl rfl, ?_, h.newest,
      h.older, h.guarded⟩
    refine h.tiles.perm ?_
    rw [← Multiset.coe_eq_coe]
    simp only [if_true, ← Multiset.coe_add, List.cons_append, ← Multiset.cons_coe,
      ← Multiset.singleton_add, Multiset.coe_nil]
    abel
  | false =>
    rw [isProtected_eq_false h] at hprot
    obtain ⟨hsound, hprot', hbefore⟩ := joinBefore_sound h hprot
    simp only [Bool.false_eq_true, if_false]
    rcases joinAfter_cases (a.joinBefore run).2 (a.joinBefore run).1 with
      ⟨heq, hafter⟩ | ⟨e, he, hstart, heq⟩
    · rw [heq]
      exact hsound.give_back hprot' hbefore hafter
    · rw [heq]
      obtain ⟨-, hperm⟩ := removeExtent_extents hsound.extents he
      refine (hsound.join_after he hstart).give_back (fun p hp => ?_) (fun e' he' => ?_)
        fun e' he' => ?_
      · have := hprot' p hp
        have := (hsound.guarded p hp).2 e he
        have := hsound.guard_pos hp
        simp only [Span.Apart, Span.stop] at *
        omega
      · exact hbefore e' (hperm.mem_iff.mpr (List.mem_cons_of_mem _ he'))
      · have := (List.pairwise_cons.mp (hsound.extents.clear.perm hperm fun hc => hc.symm)).1
          e' he'
        have := hsound.tiles.pos e (by simp [he])
        simp only [Clear, Span.stop] at *
        omega

end Free

theorem foldl_free_sound {runs : List Run} (h : a.Sound (runs ++ live)) :
    (runs.foldl free a).Sound live := by
  induction runs generalizing a with
  | nil => exact h
  | cons run runs ih => exact ih (free_sound h)

theorem retryPending_sound (h : a.Sound live) : a.retryPending.Sound live := by
  refine foldl_free_sound ⟨h.extents.congr rfl rfl, ?_,
    h.newest, h.older, h.guarded⟩
  refine h.tiles.perm ?_
  rw [← Multiset.coe_eq_coe]
  simp only [← Multiset.coe_add, Multiset.coe_nil]
  abel

theorem releasePrevious_sound (h : a.Sound live) : a.releasePrevious.Sound live :=
  retryPending_sound ⟨h.extents.congr rfl rfl, h.tiles,
    h.newest, .nil, fun p hp => h.guarded p (by simpa using Or.inl hp)⟩

theorem mem_realRuns {runs : List Run} {r : Run} : r ∈ realRuns runs ↔ r ∈ runs ∧ 0 < r.count := by
  simp [realRuns]

theorem generation_perm {runs : List Run}
    (h : (realRuns runs).Pairwise Span.Apart) :
    (generation runs).Perm (realRuns runs) := by
  have hpos : ∀ r ∈ realRuns runs, 0 < r.count := fun r hr => (mem_realRuns.mp hr).2
  have hkeys : ((realRuns runs) ++ []).Pairwise
      fun r s => Span.start r ≠ Span.start s := by
    rw [List.append_nil]
    refine (List.Pairwise.and_mem.mp h).imp fun ⟨hr, hs, hapart⟩ => ?_
    have := hpos _ hr
    have := hpos _ hs
    simp only [Span.Apart, Span.stop] at hapart
    omega
  have hperm := perm_foldl_putKey Span.start [] .nil hkeys
  rwa [List.append_nil] at hperm

theorem generation_spec {runs : List Run}
    (h : (realRuns runs).Pairwise Span.Apart) :
    Generation (generation runs) ∧ ∀ r, r ∈ generation runs ↔ r ∈ runs ∧ 0 < r.count := by
  have hperm := generation_perm h
  have hmem : ∀ r, r ∈ generation runs ↔ r ∈ runs ∧ 0 < r.count := fun r => by
    rw [hperm.mem_iff, mem_realRuns]
  exact ⟨⟨ascending_foldl_putKey _ .nil, h.perm hperm.symm fun hab => hab.symm,
    fun p hp => ((hmem p).mp hp).2⟩, hmem⟩

def Protectable (a : BlockAllocator) (runs : List Run) : Prop :=
  (realRuns runs).Pairwise Span.Apart ∧
    ∀ r ∈ runs, 0 < r.count → r.stop ≤ a.totalBlocks ∧ ∀ e ∈ a.byPos, r.Apart e

theorem setProtected_sound (h : a.Sound live) {runs : List Run} (hruns : a.Protectable runs) :
    (a.setProtected runs).Sound live := by
  obtain ⟨hgen, hmem⟩ := generation_spec hruns.1
  refine retryPending_sound ⟨h.extents.congr rfl rfl, h.tiles, hgen, h.newest, fun p hp => ?_⟩
  rcases List.mem_append.mp hp with hp | hp
  · obtain ⟨hrun, hpos⟩ := (hmem p).mp hp
    exact hruns.2 p hrun hpos
  · exact h.guarded p (List.mem_append_left _ hp)

theorem new_sound : new.Sound [] :=
  ⟨⟨.nil, .nil, by simp [new], .nil⟩, .nil, .nil, .nil, by simp [new]⟩

section Layout

variable {cursor : Nat} {placed : List Run}

structure Laid (a : BlockAllocator) (cursor : Nat) (placed : List Run) : Prop where
  extents : a.Extents
  tiles : Tiles cursor (placed ++ a.byPos)
  clear : ∀ e ∈ a.byPos, e.stop < cursor
  unguarded : a.protected = [] ∧ a.previous = [] ∧ a.pending = []

theorem Laid.gap (h : a.Laid cursor placed) {stop : Nat} (hle : cursor ≤ stop) :
    let b := if cursor < stop then a.insertExtent cursor (stop - cursor) else a
    b.Extents ∧ Tiles stop (placed ++ b.byPos) ∧ (∀ e ∈ b.byPos, e.stop ≤ stop) ∧
      (b.protected = [] ∧ b.previous = [] ∧ b.pending = []) ∧ b.totalBlocks = a.totalBlocks := by
  by_cases hlt : cursor < stop
  · simp only [hlt, if_true]
    obtain ⟨hext, hperm⟩ := insertExtent_extents (x := ⟨cursor, stop - cursor⟩) h.extents
      fun e he => .inr (h.clear e he)
    have hgrow := h.tiles.grow (n := stop - cursor) (by omega)
    rw [Nat.add_sub_cancel' hle] at hgrow
    refine ⟨hext, hgrow.perm ?_, fun e he => ?_, h.unguarded, rfl⟩
    · exact (List.perm_middle.symm).trans (hperm.symm.append_left placed)
    · rcases List.mem_cons.mp (hperm.mem_iff.mp he) with rfl | he
      · simp only [Span.stop]
        omega
      · exact (h.clear e he).le.trans hle
  · have hstop : stop = cursor := by omega
    subst hstop
    simp only [lt_irrefl, if_false]
    exact ⟨h.extents, h.tiles, fun e he => (h.clear e he).le, h.unguarded, trivial⟩

theorem fillGaps_sound {runs : List Run} (h : a.Laid cursor placed)
    (hsorted : runs.Pairwise fun r s => r.stop ≤ s.start)
    (hruns : ∀ r ∈ runs, cursor ≤ r.start ∧ 0 < r.count ∧ r.stop ≤ a.totalBlocks)
    (hcursor : cursor ≤ a.totalBlocks) : (a.fillGaps cursor runs).Sound (runs ++ placed) := by
  induction runs generalizing a cursor placed with
  | nil =>
    obtain ⟨hext, htiles, -, ⟨hp, hq, hpending⟩, htotal⟩ := h.gap hcursor
    rw [fillGaps]
    refine ⟨hext, ?_, ?_, ?_, ?_⟩
    · rw [htotal, hpending, List.append_nil]
      exact htiles
    · exact hp ▸ .nil
    · exact hq ▸ .nil
    · simp [hp, hq]
  | cons run runs ih =>
    obtain ⟨hcur, hpos, hstop⟩ := hruns run List.mem_cons_self
    obtain ⟨hsep, hsorted⟩ := List.pairwise_cons.mp hsorted
    obtain ⟨hext, htiles, hclear, hguard, htotal⟩ := h.gap hcur
    rw [fillGaps]
    have hlaid : Laid _ run.stop (run :: placed) :=
      ⟨hext, htiles.grow hpos, fun e he => (hclear e he).trans_lt (by simp only [Span.stop]; omega),
        hguard⟩
    refine (ih hlaid hsorted (fun r hr => ⟨hsep r hr, ?_⟩) (by rw [htotal]; exact hstop)).perm
      List.perm_middle
    rw [htotal]
    exact (hruns r (List.mem_cons_of_mem _ hr)).2

end Layout

-- What a persisted layout has in use: disjoint runs inside the file.
theorem fromLayout_sound {total : Nat} {used : List Run}
    (hapart : (realRuns used).Pairwise Span.Apart)
    (hstop : ∀ r ∈ used, 0 < r.count → r.stop ≤ total) :
    (fromLayout total used).Sound (realRuns used) := by
  have hperm := List.perm_insertionSort (fun r s : Run => r.start ≤ s.start)
    (realRuns used)
  have hmem : ∀ r ∈ (realRuns used).insertionSort (fun r s : Run => r.start ≤ s.start),
      r ∈ used ∧ 0 < r.count := fun r hr => mem_realRuns.mp (hperm.mem_iff.mp hr)
  have hsorted : ((realRuns used).insertionSort
      fun r s : Run => r.start ≤ s.start).Pairwise fun r s => r.stop ≤ s.start := by
    have hle := List.pairwise_insertionSort (fun r s : Run => r.start ≤ s.start)
      (realRuns used)
    have hboth := hle.and (hapart.perm hperm.symm fun hab => hab.symm)
    refine (List.Pairwise.and_mem.mp hboth).imp fun ⟨hr, hs, hle, hap⟩ => ?_
    have := (hmem _ hr).2
    have := (hmem _ hs).2
    simp only [Span.Apart, Span.stop] at *
    omega
  have hstart : Laid { new with totalBlocks := total } 0 [] :=
    ⟨⟨.nil, .nil, by simp [new], .nil⟩, .nil, by simp [new], by simp [new]⟩
  have hsound := fillGaps_sound hstart hsorted (fun r hr => ⟨Nat.zero_le _, (hmem r hr).2,
    hstop r (hmem r hr).1 (hmem r hr).2⟩) (Nat.zero_le _)
  rw [List.append_nil] at hsound
  exact hsound.perm hperm

-- The runs of an allocator, with what is handed out and not freed. A checkpoint
-- protects live runs, and a layout names disjoint ones.
inductive AllocRun : BlockAllocator → List Run → Prop
  | new : AllocRun new []
  | fromLayout (total : Nat) (used : List Run) (hapart : (realRuns used).Pairwise Span.Apart)
      (hstop : ∀ r ∈ used, 0 < r.count → r.stop ≤ total) :
      AllocRun (fromLayout total used) (realRuns used)
  | alloc {a : BlockAllocator} {live : List Run} (h : AllocRun a live) (n : Nat) (hn : 0 < n) :
      AllocRun (a.alloc n).2 ((a.alloc n).1 :: live)
  | allocTail {a : BlockAllocator} {live : List Run} (h : AllocRun a live) (n : Nat) (hn : 0 < n) :
      AllocRun (a.allocTail n).2 ((a.allocTail n).1 :: live)
  | free {a : BlockAllocator} {live : List Run} (h : AllocRun a live) (run : Run)
      (hrun : run ∈ live) : AllocRun (a.free run) (live.erase run)
  | setProtected {a : BlockAllocator} {live : List Run} (h : AllocRun a live) (runs : List Run)
      (hruns : a.Protectable runs) : AllocRun (a.setProtected runs) live
  | releasePrevious {a : BlockAllocator} {live : List Run} (h : AllocRun a live) :
      AllocRun a.releasePrevious live
  | truncate {a : BlockAllocator} {live : List Run} (h : AllocRun a live) :
      AllocRun a.truncate.2 live

theorem AllocRun.sound (h : AllocRun a live) : a.Sound live := by
  induction h with
  | new => exact new_sound
  | fromLayout total used hapart hstop => exact fromLayout_sound hapart hstop
  | alloc h n hn ih => exact (alloc_sound ih hn).1
  | allocTail h n hn ih => exact (allocTail_sound ih hn).1
  | free h run hrun ih => exact free_sound (ih.perm (List.perm_cons_erase hrun))
  | setProtected h runs hruns ih => exact setProtected_sound ih hruns
  | releasePrevious h ih => exact releasePrevious_sound ih
  | truncate h ih => exact truncate_sound ih

def Fresh (a : BlockAllocator) (live : List Run) (run : Run) : Prop :=
  (∀ l ∈ live, run.Apart l) ∧ ∀ p ∈ a.protected ++ a.previous, run.Apart p

theorem alloc_fresh (h : a.Sound live) {n : Nat} (hn : 0 < n) :
    a.Fresh live (a.alloc n).1 ∧ a.Fresh live (a.allocTail n).1 := by
  obtain ⟨hsound, hprot⟩ := alloc_sound h hn
  obtain ⟨hsound', hprot'⟩ := allocTail_sound h hn
  exact ⟨⟨fun l hl => (List.pairwise_cons.mp hsound.tiles.apart).1 l (by simp [hl]),
      fun p hp => (hprot p hp).symm⟩,
    fun l hl => (List.pairwise_cons.mp hsound'.tiles.apart).1 l (by simp [hl]),
    fun p hp => (hprot' p hp).symm⟩

end BlockAllocator

end WaveDb.Storage
