import WaveDb.Lib.Runs
import WaveDb.Lib.Table
import WaveDb.Storage.Media

-- The page cache: images of runs, held within a budget of bytes in front of the file.
namespace WaveDb.Storage.PageCache

open WaveDb.Lib

structure Entry where
  blocks : Nat
  bytes : Bytes
  deriving DecidableEq

-- Images by the first block of their runs. The queue gives the order of
-- eviction, and keeps the keys that were dropped meanwhile.
structure Inner where
  pages : Table Nat Entry
  fifo : List Nat
  bytes : Nat
  deriving DecidableEq

def runOf (x : Nat × Entry) : Run := ⟨x.1, x.2.blocks⟩

def total (pages : Table Nat Entry) : Nat := (pages.map fun x => x.2.bytes.length).sum

namespace Inner

def empty : Inner := ⟨[], [], 0⟩

def get (inner : Inner) (run : Run) : Option Bytes :=
  match inner.pages.get run.start with
  | some e => if e.blocks = run.count then some e.bytes else none
  | none => none

def dropAt (inner : Inner) (start : Nat) : Inner :=
  match inner.pages.get start with
  | some old => ⟨inner.pages.erase start, inner.fifo, inner.bytes - old.bytes.length⟩
  | none => inner

def evict (budget : Nat) : List Nat → Inner → Inner
  | [], inner => { inner with fifo := [] }
  | oldest :: fifo, inner =>
    if budget < inner.bytes then evict budget fifo (inner.dropAt oldest)
    else { inner with fifo := oldest :: fifo }

def insert (budget : Nat) (inner : Inner) (run : Run) (bytes : Bytes) : Inner :=
  if budget = 0 ∨ budget < bytes.length then inner
  else
    let inner := inner.dropAt run.start
    evict budget (inner.fifo ++ [run.start])
      { inner with
        pages := inner.pages.put run.start ⟨run.count, bytes⟩
        bytes := inner.bytes + bytes.length }

-- From the last image before the end of the run, backwards while they reach into it.
def doomed (inner : Inner) (run : Run) : List Nat :=
  ((below Prod.fst run.stop inner.pages).reverse.takeWhile fun x =>
    run.start < x.1 + x.2.blocks).map Prod.fst

def invalidate (inner : Inner) (run : Run) : Inner := (inner.doomed run).foldl dropAt inner

def clear (_ : Inner) : Inner := empty

end Inner

section Counting

theorem total_append (a b : Table Nat Entry) : total (a ++ b) = total a + total b := by
  simp [total]

theorem total_cons (start : Nat) (e : Entry) (a : Table Nat Entry) :
    total ((start, e) :: a) = e.bytes.length + total a := by
  simp [total]

theorem total_erase {pages : Table Nat Entry} (h : Ascending Prod.fst pages) {start : Nat}
    {old : Entry} (hget : pages.get start = some old) :
    total pages = old.bytes.length + total (pages.erase start) := by
  obtain ⟨a, b, rfl⟩ := List.append_of_mem (Table.mem_of_get hget)
  have herase : Table.erase (a ++ (start, old) :: b) start = a ++ b := drop_at h
  rw [herase, total_append, total_append, total_cons]
  omega

theorem total_put {pages : Table Nat Entry} (h : Ascending Prod.fst pages) {start : Nat}
    (hget : pages.get start = none) (e : Entry) :
    total (pages.put start e) = total pages + e.bytes.length := by
  have hput : total (pages.put start e) =
      total (below Prod.fst start pages ++ above Prod.fst start pages) + e.bytes.length := by
    rw [Table.put, total_append, total_append, total_cons]
    omega
  rcases exists_parts h start with hparts | ⟨x, hx, hparts⟩
  · rw [hput, ← hparts]
  · have hmem : x ∈ pages := by
      rw [hparts]
      simp
    exact absurd hx (Table.get_eq_none.mp hget x hmem)

structure Counted (inner : Inner) : Prop where
  ascending : Ascending Prod.fst inner.pages
  bytes_eq : inner.bytes = total inner.pages
  queued : ∀ x ∈ inner.pages, x.1 ∈ inner.fifo

theorem counted_empty : Counted .empty := ⟨.nil, rfl, fun _ hx => nomatch hx⟩

variable {inner : Inner}

@[simp] theorem fifo_dropAt (inner : Inner) (start : Nat) :
    (inner.dropAt start).fifo = inner.fifo := by
  unfold Inner.dropAt
  split <;> rfl

theorem mem_dropAt {start : Nat} {x : Nat × Entry} :
    x ∈ (inner.dropAt start).pages ↔ x ∈ inner.pages ∧ x.1 ≠ start := by
  unfold Inner.dropAt
  split
  · simp only [Table.erase, List.mem_append, mem_below, mem_above, ← and_or_left, ne_iff_lt_or_gt]
  · rename_i hget
    exact ⟨fun hx => ⟨hx, Table.get_eq_none.mp hget x hx⟩, fun h => h.1⟩

theorem get_dropAt (inner : Inner) (start : Nat) : (inner.dropAt start).pages.get start = none :=
  Table.get_eq_none.mpr fun _ hx => (mem_dropAt.mp hx).2

theorem ascending_dropAt (h : Ascending Prod.fst inner.pages) (start : Nat) :
    Ascending Prod.fst (inner.dropAt start).pages := by
  unfold Inner.dropAt
  split
  · exact ascending_drop h start
  · exact h

theorem bytes_dropAt (h : Ascending Prod.fst inner.pages) (hbytes : inner.bytes = total inner.pages)
    (start : Nat) : (inner.dropAt start).bytes = total (inner.dropAt start).pages := by
  unfold Inner.dropAt
  split
  · rename_i old hget
    have herase := total_erase h hget
    simp only
    omega
  · exact hbytes

theorem Counted.dropAt (h : Counted inner) (start : Nat) : Counted (inner.dropAt start) where
  ascending := ascending_dropAt h.ascending start
  bytes_eq := bytes_dropAt h.ascending h.bytes_eq start
  queued x hx := by
    rw [fifo_dropAt]
    exact h.queued x (mem_dropAt.mp hx).1

theorem mem_foldl_dropAt {starts : List Nat} {x : Nat × Entry} :
    x ∈ (starts.foldl Inner.dropAt inner).pages ↔ x ∈ inner.pages ∧ x.1 ∉ starts := by
  induction starts generalizing inner with
  | nil => simp
  | cons start starts ih => rw [List.foldl_cons, ih, mem_dropAt, List.mem_cons, not_or, and_assoc]

theorem Counted.foldl_dropAt (h : Counted inner) (starts : List Nat) :
    Counted (starts.foldl Inner.dropAt inner) := by
  induction starts generalizing inner with
  | nil => exact h
  | cons start starts ih => exact ih (h.dropAt start)

theorem Counted.invalidate (h : Counted inner) (run : Run) : Counted (inner.invalidate run) :=
  h.foldl_dropAt _

theorem bytes_foldl_dropAt_le (inner : Inner) (starts : List Nat) :
    (starts.foldl Inner.dropAt inner).bytes ≤ inner.bytes := by
  induction starts generalizing inner with
  | nil => exact le_rfl
  | cons start starts ih =>
    refine (ih _).trans ?_
    unfold Inner.dropAt
    split
    · exact Nat.sub_le _ _
    · exact le_rfl

-- The loop ends within the budget: with the queue used up nothing is held.
theorem evict_spec (inner : Inner) (budget : Nat) (fifo : List Nat) (h : Ascending Prod.fst inner.pages)
    (hbytes : inner.bytes = total inner.pages) (hqueued : ∀ x ∈ inner.pages, x.1 ∈ fifo) :
    Counted (inner.evict budget fifo) ∧ (inner.evict budget fifo).bytes ≤ budget ∧
      ∀ x ∈ (inner.evict budget fifo).pages, x ∈ inner.pages := by
  induction fifo generalizing inner with
  | nil =>
    have hnone : inner.pages = [] := List.eq_nil_iff_forall_not_mem.mpr fun x hx =>
      List.not_mem_nil (hqueued x hx)
    refine ⟨⟨h, hbytes, hqueued⟩, ?_, fun x hx => hx⟩
    change inner.bytes ≤ budget
    rw [hbytes, hnone]
    exact Nat.zero_le _
  | cons oldest fifo ih =>
    rw [Inner.evict]
    split
    · have hleft : ∀ x ∈ (inner.dropAt oldest).pages, x.1 ∈ fifo := fun x hx =>
        (List.mem_cons.mp (hqueued x (mem_dropAt.mp hx).1)).resolve_left (mem_dropAt.mp hx).2
      obtain ⟨hcounted, hle, hsub⟩ :=
        ih _ (ascending_dropAt h oldest) (bytes_dropAt h hbytes oldest) hleft
      exact ⟨hcounted, hle, fun x hx => (mem_dropAt.mp (hsub x hx)).1⟩
    · rename_i hle
      exact ⟨⟨h, hbytes, hqueued⟩, Nat.not_lt.mp hle, fun x hx => hx⟩

theorem insert_spec {budget : Nat} (h : Counted inner) (hle : inner.bytes ≤ budget) (run : Run)
    (bytes : Bytes) :
    Counted (inner.insert budget run bytes) ∧ (inner.insert budget run bytes).bytes ≤ budget ∧
      ∀ x ∈ (inner.insert budget run bytes).pages,
        x = (run.start, ⟨run.count, bytes⟩) ∨ x ∈ inner.pages := by
  unfold Inner.insert
  split
  · exact ⟨h, hle, fun x hx => .inr hx⟩
  · have hdropped := h.dropAt run.start
    have hget := get_dropAt inner run.start
    obtain ⟨hcounted, hbudget, hsub⟩ := evict_spec { inner.dropAt run.start with
        pages := (inner.dropAt run.start).pages.put run.start ⟨run.count, bytes⟩
        bytes := (inner.dropAt run.start).bytes + bytes.length } budget
      ((inner.dropAt run.start).fifo ++ [run.start])
      (Table.ascending_put hdropped.ascending _ _)
      (by simp only [total_put hdropped.ascending hget, hdropped.bytes_eq])
      (fun x hx => by
        rcases Table.mem_put hx with rfl | hx
        · simp
        · exact List.mem_append_left _ (hdropped.queued x hx))
    refine ⟨hcounted, hbudget, fun x hx => ?_⟩
    rcases Table.mem_put (hsub x hx) with rfl | hx
    · exact .inl rfl
    · exact .inr (mem_dropAt.mp hx).1

end Counting

section Overlap

theorem takeWhile_eq_filter {α : Type} {p : α → Bool} {l : List α}
    (h : l.Pairwise fun a b => p b → p a) : l.takeWhile p = l.filter p := by
  induction l with
  | nil => rfl
  | cons a l ih =>
    obtain ⟨ha, hl⟩ := List.pairwise_cons.mp h
    cases hp : p a with
    | true => rw [List.takeWhile_cons_of_pos hp, List.filter_cons_of_pos hp, ih hl]
    | false =>
      have hnone : l.filter p = [] := List.filter_eq_nil_iff.mpr fun b hb hpb =>
        Bool.false_ne_true (hp.symm.trans (ha b hb hpb))
      rw [List.takeWhile_cons_of_neg (by simp [hp]), List.filter_cons_of_neg (by simp [hp]),
        hnone]

structure Spread (pages : Table Nat Entry) : Prop where
  pos : ∀ x ∈ pages, 0 < x.2.blocks
  apart : ∀ x ∈ pages, ∀ y ∈ pages, x.1 ≠ y.1 → (runOf x).Apart (runOf y)

theorem Spread.mono {pages pages' : Table Nat Entry} (h : Spread pages)
    (hsub : ∀ x ∈ pages', x ∈ pages) : Spread pages' where
  pos x hx := h.pos x (hsub x hx)
  apart x hx y hy := h.apart x (hsub x hx) y (hsub y hy)

-- Of two images apart, the later reaches further, so the walk back from the
-- end of the run meets every image it has to.
theorem mem_doomed {inner : Inner} (h : Ascending Prod.fst inner.pages) (hspread : Spread inner.pages)
    {run : Run} {x : Nat × Entry} (hx : x ∈ inner.pages) :
    x.1 ∈ inner.doomed run ↔ ¬(runOf x).Apart run := by
  have hmono : (below Prod.fst run.stop inner.pages).reverse.Pairwise fun a b =>
      decide (run.start < b.1 + b.2.blocks) = true → decide (run.start < a.1 + a.2.blocks) = true := by
    rw [List.pairwise_reverse]
    refine (h.sublist List.filter_sublist).imp_of_mem fun {a b} ha hb hlt hreach => ?_
    have hpos := hspread.pos a (mem_below.mp ha).1
    have hposb := hspread.pos b (mem_below.mp hb).1
    have hapart := hspread.apart a (mem_below.mp ha).1 b (mem_below.mp hb).1 hlt.ne
    simp only [decide_eq_true_eq, Span.Apart, runOf, Span.stop] at hapart hreach ⊢
    omega
  unfold Inner.doomed
  rw [takeWhile_eq_filter hmono, List.mem_map]
  constructor
  · rintro ⟨y, hy, hkey⟩
    simp only [List.mem_filter, List.mem_reverse, mem_below, decide_eq_true_eq] at hy
    have heq : y.2 = x.2 := Option.some.inj
      ((Table.get_of_mem h hy.1.1).symm.trans (hkey ▸ Table.get_of_mem h hx))
    rw [hkey, heq] at hy
    simp only [Span.Apart, runOf, Span.stop] at hy ⊢
    omega
  · intro hover
    refine ⟨x, ?_, rfl⟩
    simp only [Span.Apart, runOf, Span.stop] at hover
    simp only [List.mem_filter, List.mem_reverse, mem_below, decide_eq_true_eq, Span.stop]
    exact ⟨⟨hx, by omega⟩, by omega⟩

theorem mem_invalidate {inner : Inner} (h : Ascending Prod.fst inner.pages)
    (hspread : Spread inner.pages) {run : Run} {x : Nat × Entry} :
    x ∈ (inner.invalidate run).pages ↔ x ∈ inner.pages ∧ (runOf x).Apart run := by
  rw [Inner.invalidate, mem_foldl_dropAt]
  constructor
  · rintro ⟨hx, hkept⟩
    exact ⟨hx, not_not.mp fun hover => hkept ((mem_doomed h hspread hx).mpr hover)⟩
  · rintro ⟨hx, hapart⟩
    exact ⟨hx, fun hdoomed => (mem_doomed h hspread hx).mp hdoomed hapart⟩

end Overlap

section File

def byteOffset (run : Run) : Nat := run.start * blockSize

def byteLen (run : Run) : Nat := run.count * blockSize

def setLen (file : Bytes) (len : Nat) : Bytes :=
  file.take len ++ List.replicate (len - file.length) 0

def ensureLen (file : Bytes) (minLen : Nat) : Bytes :=
  if file.length < minLen then setLen file minLen else file

def writeAllAt (file bytes : Bytes) (offset : Nat) : Bytes :=
  file.take offset ++ bytes ++ file.drop (offset + bytes.length)

structure BlockFile where
  file : Bytes
  cache : Inner
  budget : Nat
  deriving DecidableEq

namespace BlockFile

def readRun (disk : BlockFile) (run : Run) : Except StorageError Bytes :=
  if disk.file.length < run.stop * blockSize then
    .error (.outOfBounds (run.stop * blockSize) disk.file.length)
  else .ok ((disk.file.drop (byteOffset run)).take (byteLen run))

-- Overlapping images are forgotten before the write. The tail of the run is
-- left as it is.
def writeRun (disk : BlockFile) (run : Run) (bytes : Bytes) : Except StorageError BlockFile :=
  if byteLen run < bytes.length then .error (.runOverflow bytes.length (byteLen run))
  else .ok { disk with
    file := writeAllAt (ensureLen disk.file (run.stop * blockSize)) bytes (byteOffset run)
    cache := disk.cache.invalidate run }

def readRunShared (disk : BlockFile) (run : Run) : Except StorageError Bytes × BlockFile :=
  match disk.cache.get run with
  | some hit => (.ok hit, disk)
  | none =>
    match disk.readRun run with
    | .error e => (.error e, disk)
    | .ok bytes => (.ok bytes, { disk with cache := disk.cache.insert disk.budget run bytes })

def truncateToBlocks (disk : BlockFile) (blocks : Nat) : BlockFile :=
  { disk with file := setLen disk.file (blocks * blockSize) }

end BlockFile

def byteAt (file : Bytes) (i : Nat) : UInt8 := file.getD i 0

theorem length_setLen (file : Bytes) (len : Nat) : (setLen file len).length = len := by
  simp only [setLen, List.length_append, List.length_take, List.length_replicate]
  omega

theorem byteAt_of_le {file : Bytes} {i : Nat} (h : file.length ≤ i) : byteAt file i = 0 := by
  rw [byteAt, List.getD_eq_default _ _ h]

theorem byteAt_append_left {a : Bytes} (b : Bytes) {i : Nat} (h : i < a.length) :
    byteAt (a ++ b) i = byteAt a i := by
  rw [byteAt, byteAt, List.getD_append _ _ _ _ h]

theorem byteAt_append_right {a : Bytes} (b : Bytes) {i : Nat} (h : a.length ≤ i) :
    byteAt (a ++ b) i = byteAt b (i - a.length) := by
  rw [byteAt, byteAt, List.getD_append_right _ _ _ _ h]

theorem byteAt_take {file : Bytes} {len i : Nat} (h : i < len) :
    byteAt (file.take len) i = byteAt file i := by
  simp only [byteAt, List.getD_eq_getElem?_getD, List.getElem?_take_of_lt h]

theorem byteAt_drop (file : Bytes) (len i : Nat) :
    byteAt (file.drop len) i = byteAt file (len + i) := by
  simp only [byteAt, List.getD_eq_getElem?_getD, List.getElem?_drop]

theorem byteAt_replicate (len i : Nat) : byteAt (List.replicate len 0) i = 0 := by
  rw [byteAt, List.getD_eq_getElem?_getD, List.getElem?_replicate]
  split <;> rfl

theorem byteAt_setLen (file : Bytes) (len i : Nat) :
    byteAt (setLen file len) i = if i < len then byteAt file i else 0 := by
  split
  · rename_i hi
    by_cases hfile : i < file.length
    · rw [setLen, byteAt_append_left _ (by rw [List.length_take]; omega), byteAt_take hi]
    · rw [setLen, byteAt_append_right _ (by rw [List.length_take]; omega),
        byteAt_replicate, byteAt_of_le (Nat.not_lt.mp hfile)]
  · rename_i hi
    exact byteAt_of_le ((length_setLen file len).trans_le (Nat.not_lt.mp hi))

theorem byteAt_ensureLen (file : Bytes) (minLen i : Nat) :
    byteAt (ensureLen file minLen) i = byteAt file i := by
  unfold ensureLen
  split
  · rw [byteAt_setLen]
    split
    · rfl
    · rename_i hlen hi
      exact (byteAt_of_le (by omega)).symm
  · rfl

theorem length_ensureLen (file : Bytes) (minLen : Nat) :
    (ensureLen file minLen).length = max file.length minLen := by
  unfold ensureLen
  split
  · rw [length_setLen]
    omega
  · omega

theorem length_writeAllAt {file bytes : Bytes} {offset : Nat}
    (h : offset + bytes.length ≤ file.length) :
    (writeAllAt file bytes offset).length = file.length := by
  simp only [writeAllAt, List.length_append, List.length_take, List.length_drop]
  omega

theorem byteAt_writeAllAt {file bytes : Bytes} {offset : Nat}
    (h : offset + bytes.length ≤ file.length) (i : Nat) :
    byteAt (writeAllAt file bytes offset) i =
      if offset ≤ i ∧ i < offset + bytes.length then byteAt bytes (i - offset)
      else byteAt file i := by
  have hhead : (file.take offset).length = offset := List.length_take_of_le (by omega)
  unfold writeAllAt
  by_cases hbefore : i < offset
  · rw [if_neg (by omega), List.append_assoc, byteAt_append_left _ (by omega), byteAt_take hbefore]
  · by_cases hin : i < offset + bytes.length
    · rw [if_pos (by omega), List.append_assoc, byteAt_append_right _ (by omega), hhead,
        byteAt_append_left _ (by omega)]
    · rw [if_neg (by omega), byteAt_append_right _ (by rw [List.length_append]; omega),
        byteAt_drop, List.length_append, hhead]
      congr 1
      omega

end File

section Plane

-- The file without a cache: what was last written at each place, and the runs
-- in use.
structure Plane where
  content : Nat → UInt8
  live : List Run

-- A window write places runs inside its window. A run is freed without a
-- trace on disk.
inductive Op
  | write (window : Run) (bytes : Bytes) (placed : List Run)
  | free (run : Run)
  | read (run : Run)
  | forget (run : Run)
  | clear
  | truncate (blocks : Nat)
  deriving DecidableEq

namespace Plane

def image (plane : Plane) (run : Run) : Bytes :=
  (List.range (byteLen run)).map fun i => plane.content (byteOffset run + i)

def write (plane : Plane) (window : Run) (bytes : Bytes) (placed : List Run) : Plane where
  content i :=
    if byteOffset window ≤ i ∧ i < byteOffset window + bytes.length then
      byteAt bytes (i - byteOffset window)
    else plane.content i
  live := plane.live.filter (·.Apart window) ++ placed

def truncate (plane : Plane) (blocks : Nat) : Plane where
  content i := if i < blocks * blockSize then plane.content i else 0
  live := plane.live.filter (·.stop ≤ blocks)

def step (plane : Plane) : Op → Plane
  | .write window bytes placed =>
    if byteLen window < bytes.length then plane else plane.write window bytes placed
  | .free run => { plane with live := plane.live.filter (· ≠ run) }
  | .truncate blocks => plane.truncate blocks
  | .read _ | .forget _ | .clear => plane

def Allows (plane : Plane) : Op → Prop
  | .write window _ placed =>
    (∀ r ∈ placed, 0 < r.count ∧ window.start ≤ r.start ∧ r.stop ≤ window.stop) ∧
      placed.Pairwise Span.Apart
  | .read run => run ∈ plane.live
  | .free _ | .forget _ | .clear | .truncate _ => True

theorem image_congr {plane plane' : Plane} {run : Run}
    (h : ∀ i < byteLen run, plane'.content (byteOffset run + i) = plane.content (byteOffset run + i)) :
    plane'.image run = plane.image run :=
  List.map_congr_left fun i hi => h i (List.mem_range.mp hi)

theorem byteAt_image {plane : Plane} {run : Run} {i : Nat} (h : i < byteLen run) :
    byteAt (plane.image run) i = plane.content (byteOffset run + i) := by
  simp [byteAt, image, List.getD_eq_getElem?_getD, h]

end Plane

def BlockFile.step (disk : BlockFile) : Op → BlockFile
  | .write window bytes _ => (disk.writeRun window bytes).toOption.getD disk
  | .free _ => disk
  | .read run => (disk.readRunShared run).2
  | .forget run => { disk with cache := disk.cache.invalidate run }
  | .clear => { disk with cache := disk.cache.clear }
  | .truncate blocks => disk.truncateToBlocks blocks

-- An image of a run in use is what the file holds, and no other reaches into it.
structure Fits (pages : Table Nat Entry) (plane : Plane) : Prop where
  entries : ∀ x ∈ pages, ∀ r ∈ plane.live, runOf x = r ∨ (runOf x).Apart r
  images : ∀ x ∈ pages, runOf x ∈ plane.live → x.2.bytes = plane.image (runOf x)

theorem Fits.mono {pages pages' : Table Nat Entry} {plane : Plane} (h : Fits pages plane)
    (hsub : ∀ x ∈ pages', x ∈ pages) : Fits pages' plane where
  entries x hx := h.entries x (hsub x hx)
  images x hx := h.images x (hsub x hx)

structure Coherent (disk : BlockFile) (plane : Plane) : Prop where
  counted : Counted disk.cache
  budget : disk.cache.bytes ≤ disk.budget
  spread : Spread disk.cache.pages
  fits : Fits disk.cache.pages plane
  content : ∀ i, byteAt disk.file i = plane.content i
  apart : plane.live.Pairwise Span.Apart
  inside : ∀ r ∈ plane.live, 0 < r.count ∧ r.stop * blockSize ≤ disk.file.length

variable {disk : BlockFile} {plane : Plane}

theorem Coherent.fewer (h : Coherent disk plane) {cache : Inner} (hcounted : Counted cache)
    (hbytes : cache.bytes ≤ disk.budget) (hsub : ∀ x ∈ cache.pages, x ∈ disk.cache.pages) :
    Coherent { disk with cache := cache } plane where
  counted := hcounted
  budget := hbytes
  spread := h.spread.mono hsub
  fits := h.fits.mono hsub
  content := h.content
  apart := h.apart
  inside := h.inside

theorem Coherent.invalidate (h : Coherent disk plane) (run : Run) :
    Coherent { disk with cache := disk.cache.invalidate run } plane :=
  h.fewer (h.counted.invalidate run) ((bytes_foldl_dropAt_le _ _).trans h.budget)
    fun _ hx => ((mem_invalidate h.counted.ascending h.spread).mp hx).1

theorem Coherent.clear (h : Coherent disk plane) :
    Coherent { disk with cache := disk.cache.clear } plane :=
  h.fewer counted_empty (Nat.zero_le _) fun _ hx => nomatch hx

theorem Coherent.readRun (h : Coherent disk plane) {run : Run} (hlive : run ∈ plane.live) :
    disk.readRun run = .ok (plane.image run) := by
  obtain ⟨-, hinside⟩ := h.inside run hlive
  have hlen : byteOffset run + byteLen run = run.stop * blockSize := by
    simp only [byteOffset, byteLen, Span.stop, Nat.add_mul]
  rw [BlockFile.readRun, if_neg (Nat.not_lt.mpr hinside)]
  refine congrArg _ (List.ext_getElem ?_ fun i hi hi' => ?_)
  · simp only [List.length_take, List.length_drop, Plane.image, List.length_map, List.length_range]
    omega
  · simp only [Plane.image, List.getElem_map, List.getElem_range, List.getElem_take,
      List.getElem_drop, ← h.content, byteAt]
    rw [List.getD_eq_getElem]

theorem Coherent.readRunShared (h : Coherent disk plane) {run : Run} (hlive : run ∈ plane.live) :
    (disk.readRunShared run).1 = .ok (plane.image run) ∧
      Coherent (disk.readRunShared run).2 plane := by
  unfold BlockFile.readRunShared
  cases hget : disk.cache.get run with
  | some hit =>
    refine ⟨?_, h⟩
    unfold Inner.get at hget
    split at hget
    · rename_i e hentry
      split at hget
      · rename_i hblocks
        cases hget
        have hmem : (run.start, e) ∈ disk.cache.pages := Table.mem_of_get hentry
        have hrun : runOf (run.start, e) = run := by
          rw [runOf, hblocks]
        have himage := h.fits.images _ hmem (hrun ▸ hlive)
        rw [hrun] at himage
        exact congrArg _ himage
      · cases hget
    · cases hget
  | none =>
    rw [h.readRun hlive]
    refine ⟨rfl, ?_⟩
    obtain ⟨hcounted, hbytes, hnew⟩ := insert_spec h.counted h.budget run (plane.image run)
    have hpos := (h.inside run hlive).1
    -- An image that is not the new one is apart from every run in use.
    have hother : ∀ x ∈ disk.cache.pages, x.1 ≠ run.start → (runOf x).Apart run := by
      intro x hx hne
      refine (h.fits.entries x hx run hlive).resolve_left fun heq => hne ?_
      exact congrArg Span.start heq
    refine ⟨hcounted, hbytes, ⟨fun x hx => ?_, fun x hx y hy hne => ?_⟩,
      ⟨fun x hx r hr => ?_, fun x hx hxlive => ?_⟩, h.content, h.apart, h.inside⟩
    · rcases hnew x hx with rfl | hx
      · exact hpos
      · exact h.spread.pos x hx
    · rcases hnew x hx with rfl | hx <;> rcases hnew y hy with rfl | hy
      · exact absurd rfl hne
      · exact (hother y hy fun heq => hne heq.symm).symm
      · exact hother x hx hne
      · exact h.spread.apart x hx y hy hne
    · rcases hnew x hx with rfl | hx
      · by_cases heq : run = r
        · exact .inl heq
        · exact .inr (h.apart.forall hlive hr heq)
      · exact h.fits.entries x hx r hr
    · rcases hnew x hx with rfl | hx
      · rfl
      · exact h.fits.images x hx hxlive

theorem apart_of_inside {r window inner : Run} (h : r.Apart window)
    (hstart : window.start ≤ inner.start) (hstop : inner.stop ≤ window.stop) : r.Apart inner := by
  simp only [Span.Apart] at h ⊢
  omega

theorem image_write {run window : Run} (hapart : run.Apart window) {bytes : Bytes}
    (hfit : bytes.length ≤ byteLen window) (placed : List Run) :
    (plane.write window bytes placed).image run = plane.image run := by
  refine Plane.image_congr fun i hi => if_neg ?_
  simp only [Span.Apart, Span.stop, byteLen, byteOffset, blockSize] at *
  omega

theorem Coherent.write (h : Coherent disk plane) {window : Run} {bytes : Bytes} {placed : List Run}
    (hfit : bytes.length ≤ byteLen window)
    (hplaced : ∀ r ∈ placed, 0 < r.count ∧ window.start ≤ r.start ∧ r.stop ≤ window.stop)
    (happart : placed.Pairwise Span.Apart) :
    Coherent { disk with
      file := writeAllAt (ensureLen disk.file (window.stop * blockSize)) bytes (byteOffset window)
      cache := disk.cache.invalidate window } (plane.write window bytes placed) := by
  have hrange : byteOffset window + bytes.length ≤
      (ensureLen disk.file (window.stop * blockSize)).length := by
    rw [length_ensureLen]
    simp only [byteLen, byteOffset, Span.stop, blockSize] at *
    omega
  have hkept : ∀ x ∈ (disk.cache.invalidate window).pages,
      x ∈ disk.cache.pages ∧ (runOf x).Apart window := fun x hx =>
    (mem_invalidate h.counted.ascending h.spread).mp hx
  have hlive : ∀ r ∈ (plane.write window bytes placed).live,
      (r ∈ plane.live ∧ r.Apart window) ∨ r ∈ placed := by
    intro r hr
    simpa [Plane.write] using hr
  refine ⟨h.counted.invalidate window, (bytes_foldl_dropAt_le _ _).trans h.budget,
    h.spread.mono fun x hx => (hkept x hx).1, ⟨fun x hx r hr => ?_, fun x hx hr => ?_⟩,
    fun i => ?_, ?_, fun r hr => ?_⟩
  · rcases hlive r hr with ⟨hold, -⟩ | hnew
    · exact h.fits.entries x (hkept x hx).1 r hold
    · exact .inr (apart_of_inside (hkept x hx).2 (hplaced r hnew).2.1 (hplaced r hnew).2.2)
  · rcases hlive _ hr with ⟨hold, hout⟩ | hnew
    · rw [image_write hout hfit]
      exact h.fits.images x (hkept x hx).1 hold
    · obtain ⟨hpos, hstart, hstop⟩ := hplaced _ hnew
      have hself := apart_of_inside (hkept x hx).2 hstart hstop
      simp only [Span.Apart, Span.stop] at hself
      omega
  · rw [byteAt_writeAllAt hrange, byteAt_ensureLen, h.content]
    rfl
  · refine List.pairwise_append.mpr ⟨h.apart.filter _, happart, fun r hr r' hr' => ?_⟩
    obtain ⟨-, hstart, hstop⟩ := hplaced r' hr'
    exact apart_of_inside (of_decide_eq_true (List.mem_filter.mp hr).2) hstart hstop
  · rw [length_writeAllAt hrange, length_ensureLen]
    rcases hlive r hr with ⟨hold, -⟩ | hnew
    · exact ⟨(h.inside r hold).1, (h.inside r hold).2.trans (le_max_left _ _)⟩
    · obtain ⟨hpos, -, hstop⟩ := hplaced r hnew
      exact ⟨hpos, (Nat.mul_le_mul_right blockSize hstop).trans (le_max_right _ _)⟩

theorem Coherent.truncate (h : Coherent disk plane) (blocks : Nat) :
    Coherent (disk.truncateToBlocks blocks) (plane.truncate blocks) := by
  have hlive : ∀ r ∈ (plane.truncate blocks).live, r ∈ plane.live ∧ r.stop ≤ blocks := by
    intro r hr
    simpa [Plane.truncate] using hr
  refine ⟨h.counted, h.budget, h.spread, ⟨fun x hx r hr => h.fits.entries x hx r (hlive r hr).1,
    fun x hx hr => ?_⟩, fun i => ?_, h.apart.filter _, fun r hr => ?_⟩
  · obtain ⟨hold, hstop⟩ := hlive _ hr
    rw [h.fits.images x hx hold]
    refine (Plane.image_congr fun i hi => if_pos ?_).symm
    simp only [Span.stop, byteLen, byteOffset, blockSize] at *
    omega
  · change byteAt (setLen disk.file (blocks * blockSize)) i = _
    rw [byteAt_setLen, h.content]
    rfl
  · obtain ⟨hold, hstop⟩ := hlive r hr
    change _ ∧ _ ≤ (setLen disk.file (blocks * blockSize)).length
    rw [length_setLen]
    exact ⟨(h.inside r hold).1, Nat.mul_le_mul_right blockSize hstop⟩

theorem Coherent.free (h : Coherent disk plane) (run : Run) :
    Coherent disk { plane with live := plane.live.filter (· ≠ run) } where
  counted := h.counted
  budget := h.budget
  spread := h.spread
  fits := ⟨fun x hx r hr => h.fits.entries x hx r (List.mem_of_mem_filter hr),
    fun x hx hr => h.fits.images x hx (List.mem_of_mem_filter hr)⟩
  content := h.content
  apart := h.apart.filter _
  inside r hr := h.inside r (List.mem_of_mem_filter hr)

theorem Coherent.step (h : Coherent disk plane) {op : Op} (hallows : plane.Allows op) :
    Coherent (disk.step op) (plane.step op) := by
  cases op with
  | write window bytes placed =>
    rw [BlockFile.step, Plane.step, BlockFile.writeRun]
    split
    · exact h
    · rename_i hfit
      exact h.write (Nat.not_lt.mp hfit) hallows.1 hallows.2
  | free run => exact h.free run
  | read run => exact (h.readRunShared hallows).2
  | forget run => exact h.invalidate run
  | clear => exact h.clear
  | truncate blocks => exact h.truncate blocks

def opened (file : Bytes) (budget : Nat) : BlockFile := ⟨file, .empty, budget⟩

def Plane.opened (file : Bytes) (live : List Run) : Plane := ⟨byteAt file, live⟩

theorem coherent_opened {file : Bytes} {live : List Run} (budget : Nat)
    (hapart : live.Pairwise Span.Apart)
    (hinside : ∀ r ∈ live, 0 < r.count ∧ r.stop * blockSize ≤ file.length) :
    Coherent (opened file budget) (Plane.opened file live) where
  counted := counted_empty
  budget := Nat.zero_le _
  spread := ⟨fun _ hx => (List.not_mem_nil hx).elim, fun _ hx => (List.not_mem_nil hx).elim⟩
  fits := ⟨fun _ hx => (List.not_mem_nil hx).elim, fun _ hx => (List.not_mem_nil hx).elim⟩
  content _ := rfl
  apart := hapart
  inside := hinside

def Steps (s : BlockFile × Plane) (op : Op) (s' : BlockFile × Plane) : Prop :=
  s' = (s.1.step op, s.2.step op)

def Allowed (s : BlockFile × Plane) (op : Op) : Prop := s.2.Allows op

theorem budget_step (disk : BlockFile) (op : Op) : (disk.step op).budget = disk.budget := by
  cases op with
  | write window bytes placed =>
    rw [BlockFile.step, BlockFile.writeRun]
    split <;> rfl
  | read run =>
    rw [BlockFile.step, BlockFile.readRunShared]
    split
    · rfl
    · split <;> rfl
  | free run => rfl
  | forget run => rfl
  | clear => rfl
  | truncate blocks => rfl

def Held (budget : Nat) (s : BlockFile × Plane) : Prop := Coherent s.1 s.2 ∧ s.1.budget = budget

theorem held_leads {budget : Nat} {start s : BlockFile × Plane} (hstart : Held budget start)
    (h : Leads Steps Allowed start s) : Held budget s :=
  h.invariant hstart fun s op s' hs hmeets hnext => by
    rw [show s' = (s.1.step op, s.2.step op) from hnext]
    exact ⟨hs.1.step hmeets, (budget_step s.1 op).trans hs.2⟩

theorem cache_coherent {file : Bytes} {live : List Run} {budget : Nat}
    (hapart : live.Pairwise Span.Apart)
    (hinside : ∀ r ∈ live, 0 < r.count ∧ r.stop * blockSize ≤ file.length)
    {s : BlockFile × Plane}
    (h : Leads Steps Allowed (opened file budget, Plane.opened file live) s) :
    (∀ run ∈ s.2.live, (s.1.readRunShared run).1 = .ok (s.2.image run)) ∧
      s.1.cache.bytes = total s.1.cache.pages ∧ s.1.cache.bytes ≤ budget := by
  obtain ⟨hs, hbudget⟩ := held_leads ⟨coherent_opened budget hapart hinside, rfl⟩ h
  exact ⟨fun run hrun => (hs.readRunShared hrun).1, hs.counted.bytes_eq,
    hs.budget.trans_eq hbudget⟩

def runOps (s : BlockFile × Plane) (ops : List Op) : BlockFile × Plane :=
  ops.foldl (fun s op => (s.1.step op, s.2.step op)) s

-- A page written, read into the cache, and its run recycled by a window over it.
def recycled : List Op :=
  [.write ⟨1, 1⟩ [1, 2] [⟨1, 1⟩], .read ⟨1, 1⟩, .free ⟨1, 1⟩, .write ⟨1, 2⟩ [3] [⟨1, 1⟩, ⟨2, 1⟩]]

def emptyFile : BlockFile × Plane := (opened [] 5000, Plane.opened [] [])

theorem leads_recycled : Leads Steps Allowed emptyFile (runOps emptyFile recycled) := by
  refine .step (.step (.step (.step .start ?_ rfl) ?_ rfl) ?_ rfl) ?_ rfl
  · exact And.intro (by decide) (by decide)
  · exact List.mem_singleton.mpr rfl
  · trivial
  · exact And.intro (by decide) (by decide)

theorem cache_coherent_recycled :
    (runOps emptyFile recycled).2.live = [⟨1, 1⟩, ⟨2, 1⟩] ∧
      (∀ run ∈ (runOps emptyFile recycled).2.live,
        ((runOps emptyFile recycled).1.readRunShared run).1 =
          .ok ((runOps emptyFile recycled).2.image run)) ∧
      (runOps emptyFile recycled).1.cache.bytes = total (runOps emptyFile recycled).1.cache.pages ∧
      (runOps emptyFile recycled).1.cache.bytes ≤ 5000 :=
  ⟨rfl, cache_coherent .nil (fun _ hr => (List.not_mem_nil hr).elim) leads_recycled⟩

-- The second page is shorter than the first, whose last byte is read with it.
theorem tail_of_an_older_page_read :
    Leads Steps Allowed emptyFile (runOps emptyFile recycled) ∧
      ((runOps emptyFile recycled).1.readRunShared ⟨1, 1⟩).1 ≠
        .ok ([3] ++ List.replicate (byteLen ⟨1, 1⟩ - 1) 0) := by
  have hstart : Held 5000 emptyFile :=
    ⟨coherent_opened 5000 .nil fun _ hr => (List.not_mem_nil hr).elim, rfl⟩
  have hs := (held_leads hstart leads_recycled).1
  have hlive : ⟨1, 1⟩ ∈ (runOps emptyFile recycled).2.live := List.mem_cons_self
  refine ⟨leads_recycled, fun h => ?_⟩
  have himage := Except.ok.inj ((hs.readRunShared hlive).1.symm.trans h)
  have hread : byteAt ((runOps emptyFile recycled).2.image ⟨1, 1⟩) 1 = 2 := by
    rw [Plane.byteAt_image (by decide)]
    rfl
  rw [himage, byteAt_append_right _ (by decide), byteAt_replicate] at hread
  exact absurd hread (by decide)

end Plane

end WaveDb.Storage.PageCache
