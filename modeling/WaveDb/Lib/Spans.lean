import Mathlib

-- Spans of consecutive numbers, and lists of them that tile an initial segment.
namespace WaveDb.Lib

structure Span where
  start : Nat
  count : Nat
  deriving DecidableEq, Repr

namespace Span

def stop (s : Span) : Nat := s.start + s.count

def Has (s : Span) (n : Nat) : Prop := s.start ≤ n ∧ n < s.stop

def Apart (s t : Span) : Prop := s.stop ≤ t.start ∨ t.stop ≤ s.start

instance (s t : Span) : Decidable (Apart s t) := inferInstanceAs (Decidable (_ ∨ _))

theorem Apart.symm {s t : Span} (h : Apart s t) : Apart t s := Or.symm h

instance : Std.Symm Apart := ⟨fun _ _ h => h.symm⟩

end Span

-- The spans are disjoint and cover the numbers below `total` and no other.
structure Tiles (total : Nat) (spans : List Span) : Prop where
  pos : ∀ s ∈ spans, 0 < s.count
  apart : spans.Pairwise Span.Apart
  covers : ∀ n, n < total ↔ ∃ s ∈ spans, s.Has n

namespace Tiles

variable {total : Nat} {spans rest : List Span}

theorem perm (h : Tiles total spans) (hp : spans.Perm rest) : Tiles total rest :=
  ⟨fun s hs => h.pos s (hp.mem_iff.mpr hs),
    h.apart.perm hp fun hst => hst.symm,
    fun n => (h.covers n).trans ⟨fun ⟨s, hs, hn⟩ => ⟨s, hp.mem_iff.mp hs, hn⟩,
      fun ⟨s, hs, hn⟩ => ⟨s, hp.mem_iff.mpr hs, hn⟩⟩⟩

theorem nil : Tiles 0 [] := ⟨by simp, .nil, by simp⟩

theorem stop_le (h : Tiles total spans) {s : Span} (hs : s ∈ spans) : s.stop ≤ total := by
  have hpos := h.pos s hs
  have hlast := (h.covers (s.stop - 1)).mpr ⟨s, hs, by simp only [Span.Has, Span.stop]; omega⟩
  omega

theorem apart_halves {start m n : Nat} {t : Span} (hm : 0 < m) (hn : 0 < n) (ht : 0 < t.count) :
    Span.Apart ⟨start, m + n⟩ t ↔
      Span.Apart ⟨start, m⟩ t ∧ Span.Apart ⟨start + m, n⟩ t := by
  simp only [Span.Apart, Span.stop]
  omega

theorem merge_iff {start m n : Nat} (hm : 0 < m) (hn : 0 < n) :
    Tiles total (⟨start, m⟩ :: ⟨start + m, n⟩ :: rest) ↔ Tiles total (⟨start, m + n⟩ :: rest) := by
  have hcover (k : Nat) : (∃ s ∈ (⟨start, m⟩ :: ⟨start + m, n⟩ :: rest : List Span), s.Has k) ↔
      ∃ s ∈ (⟨start, m + n⟩ :: rest : List Span), s.Has k := by
    have hhalves : (start ≤ k ∧ k < start + m) ∨ (start + m ≤ k ∧ k < start + m + n) ↔
        start ≤ k ∧ k < start + (m + n) := by omega
    rw [List.exists_mem_cons_iff, List.exists_mem_cons_iff, List.exists_mem_cons_iff, ← or_assoc]
    exact or_congr_left hhalves
  constructor
  · intro h
    have hpos : ∀ s ∈ rest, 0 < s.count := fun s hs => h.pos s (by simp [hs])
    have hapart := h.apart
    simp only [List.pairwise_cons, List.mem_cons, forall_eq_or_imp] at hapart
    refine ⟨?_, List.pairwise_cons.mpr ⟨fun t ht => ?_, hapart.2.2⟩,
      fun k => (h.covers k).trans (hcover k)⟩
    · simp only [List.mem_cons, forall_eq_or_imp]
      exact ⟨by omega, hpos⟩
    · exact (apart_halves hm hn (hpos t ht)).mpr ⟨hapart.1.2 t ht, hapart.2.1 t ht⟩
  · intro h
    have hpos : ∀ s ∈ rest, 0 < s.count := fun s hs => h.pos s (by simp [hs])
    have hapart := List.pairwise_cons.mp h.apart
    have hhalves := fun t ht => (apart_halves hm hn (hpos t ht)).mp (hapart.1 t ht)
    refine ⟨?_, ?_, fun k => (h.covers k).trans (hcover k).symm⟩
    · simp only [List.mem_cons, forall_eq_or_imp]
      exact ⟨hm, hn, hpos⟩
    · simp only [List.pairwise_cons, List.mem_cons, forall_eq_or_imp]
      exact ⟨⟨.inl le_rfl, fun t ht => (hhalves t ht).1⟩, fun t ht => (hhalves t ht).2, hapart.2⟩

theorem grow (h : Tiles total spans) {n : Nat} (hn : 0 < n) :
    Tiles (total + n) (⟨total, n⟩ :: spans) := by
  refine ⟨?_, List.pairwise_cons.mpr ⟨fun t ht => .inr (h.stop_le ht), h.apart⟩, fun k => ?_⟩
  · simp only [List.mem_cons, forall_eq_or_imp]
    exact ⟨hn, h.pos⟩
  · rw [List.exists_mem_cons_iff, ← h.covers]
    simp only [Span.Has, Span.stop]
    omega

theorem shrink {s : Span} (h : Tiles total (s :: rest)) (hs : s.stop = total) :
    Tiles s.start rest := by
  have hapart := List.pairwise_cons.mp h.apart
  refine ⟨fun t ht => h.pos t (by simp [ht]), hapart.2, fun k => ⟨fun hk => ?_, fun hk => ?_⟩⟩
  · obtain ⟨t, ht, hhas⟩ := (h.covers k).mp (by simp only [Span.stop] at hs; omega)
    rcases List.mem_cons.mp ht with rfl | ht
    · exact absurd hk (by simp only [Span.Has] at hhas; omega)
    · exact ⟨t, ht, hhas⟩
  · obtain ⟨t, ht, hhas⟩ := hk
    have hstop := h.stop_le (List.mem_cons_of_mem s ht)
    have := hapart.1 t ht
    simp only [Span.Apart, Span.Has] at *
    omega

end Tiles

end WaveDb.Lib
