import WaveDb.Storage.Alloc

-- The free extents: one set in two indexes, no two of them touching.
namespace WaveDb.Storage

open WaveDb.Lib

def Clear (e e' : Run) : Prop := e.stop < e'.start ∨ e'.stop < e.start

theorem Clear.symm {e e' : Run} (h : Clear e e') : Clear e' e := Or.symm h

instance : Std.Symm Clear := ⟨fun _ _ h => h.symm⟩

theorem sizeKey_injective : Function.Injective sizeKey := by
  rintro ⟨s, c⟩ ⟨s', c'⟩ h
  have h := congrArg ofLex h
  simp only [sizeKey, ofLex_toLex, Prod.mk.injEq] at h
  simp [h]

namespace BlockAllocator

structure Extents (a : BlockAllocator) : Prop where
  byPos : Ascending Span.start a.byPos
  bySize : Ascending sizeKey a.bySize
  same : ∀ e, e ∈ a.bySize ↔ e ∈ a.byPos
  clear : a.byPos.Pairwise Clear

variable {a : BlockAllocator} {e x : Run}

theorem Extents.congr {b : BlockAllocator} (h : a.Extents) (hpos : b.byPos = a.byPos)
    (hsize : b.bySize = a.bySize) : b.Extents :=
  ⟨hpos ▸ h.byPos, hsize ▸ h.bySize, fun e => by rw [hpos, hsize, h.same], hpos ▸ h.clear⟩

theorem Extents.clear_of_ne (h : a.Extents) {e e' : Run} (he : e ∈ a.byPos) (he' : e' ∈ a.byPos)
    (hne : e ≠ e') : Clear e e' :=
  h.clear.forall he he' hne

theorem Extents.start_inj (h : a.Extents) {e e' : Run} (he : e ∈ a.byPos) (he' : e' ∈ a.byPos)
    (hs : e.start = e'.start) : e = e' := by
  by_contra hne
  have := h.clear_of_ne he he' hne
  simp only [Clear, Span.stop] at this
  omega

theorem removeExtent_extents (h : a.Extents) (he : e ∈ a.byPos) :
    (a.removeExtent e.start e.count).Extents ∧
      a.byPos.Perm (e :: (a.removeExtent e.start e.count).byPos) := by
  have hperm : a.byPos.Perm (e :: dropKey Span.start e.start a.byPos) := perm_dropKey h.byPos he
  refine ⟨⟨ascending_drop h.byPos _, ascending_drop h.bySize _, fun e' => ?_, ?_⟩, hperm⟩
  · change e' ∈ dropKey sizeKey (sizeKey e) a.bySize ↔ e' ∈ dropKey Span.start e.start a.byPos
    rw [mem_dropKey, mem_dropKey, h.same]
    refine and_congr_right fun he' => not_congr ⟨fun hs => ?_, fun hs => ?_⟩
    · rw [sizeKey_injective hs]
    · rw [h.start_inj he' he hs]
  · exact (List.pairwise_cons.mp (h.clear.perm hperm fun hc => hc.symm)).2

theorem insertExtent_extents (h : a.Extents) (hx : ∀ e ∈ a.byPos, Clear x e) :
    (a.insertExtent x.start x.count).Extents ∧
      (a.insertExtent x.start x.count).byPos.Perm (x :: a.byPos) := by
  have hstart : ∀ e ∈ a.byPos, e.start ≠ x.start := by
    intro e he hs
    have := hx e he
    simp only [Clear, Span.stop] at this
    omega
  have hperm : (putKey Span.start x a.byPos).Perm (x :: a.byPos) := perm_putKey h.byPos hstart
  refine ⟨⟨ascending_put h.byPos x, ascending_put h.bySize x, fun e => ?_, ?_⟩, hperm⟩
  · change e ∈ putKey sizeKey x a.bySize ↔ e ∈ putKey Span.start x a.byPos
    rw [mem_putKey, mem_putKey, h.same]
    refine or_congr_right (and_congr_right fun he => iff_of_true (fun hs => ?_) (hstart e he))
    exact hstart e he (by rw [sizeKey_injective hs])
  · exact (List.pairwise_cons.mpr ⟨hx, h.clear⟩).perm hperm.symm fun hc => hc.symm

theorem Extents.stop_le_of_below (h : a.Extents) {point : Nat} {p : Run}
    (hp : (below Span.start point a.byPos).getLast? = some p) {e' : Run} (he' : e' ∈ a.byPos)
    (hlt : e'.start < point) : e' = p ∨ e'.stop < p.start := by
  obtain ⟨l, hl⟩ := List.getLast?_eq_some_iff.mp hp
  have hpmem : p ∈ a.byPos := (mem_below.mp (List.mem_of_getLast? hp)).1
  have hmem : e' ∈ below Span.start point a.byPos := mem_below.mpr ⟨he', hlt⟩
  have hsorted : Ascending Span.start (below Span.start point a.byPos) :=
    h.byPos.sublist List.filter_sublist
  rw [hl] at hmem hsorted
  rcases List.mem_append.mp hmem with hmem | hmem
  · have hlt' := hsorted.append.2.2 e' hmem p (List.mem_singleton_self p)
    have hclear := h.clear_of_ne he' hpmem (by rintro rfl; omega)
    simp only [Clear, Span.stop] at *
    omega
  · exact .inl (List.mem_singleton.mp hmem)

end BlockAllocator

end WaveDb.Storage
