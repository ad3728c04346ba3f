import WaveDb.Lib.EditDistance

-- The verification step of the fuzzy search: a banded edit distance.
namespace WaveDb.Fuzzy

open WaveDb.Lib

-- How the crate was compiled: a debug build checks its arithmetic, a release
-- build wraps.
inductive Build
  | debug
  | release
  deriving DecidableEq

inductive Panic
  | overflow
  | outOfBounds
  deriving DecidableEq

def usizeMax : Nat := 2 ^ 64 - 1

-- A `usize` result in range is what it is in every build.
def Build.word (build : Build) (n : Nat) : Except Panic Nat :=
  if n ≤ usizeMax then .ok n
  else
    match build with
    | .debug => .error .overflow
    | .release => .ok (n % 2 ^ 64)

def saturatingAdd (m n : Nat) : Nat := min (m + n) usizeMax

-- One cell of a row: a poison outside of the band `lo..=hi`, and inside of it
-- the cheapest of a substitution, a deletion and an insertion.
def cell (lo hi i diag up left : Nat) (same : Bool) : Nat :=
  if i < lo ∨ hi < i then usizeMax
  else
    min (min (saturatingAdd diag (if same then 0 else 1)) (saturatingAdd up 1))
      (saturatingAdd left 1)

-- `diag` and `left` are the cells before index `i` in the previous row and in this one.
def rowCells (cb : Char) (lo hi : Nat) : Nat → Nat → Nat → List Char → List Nat → List Nat
  | i, diag, left, c :: cs, up :: prev =>
    cell lo hi i diag up left (c == cb) ::
      rowCells cb lo hi (i + 1) up (cell lo hi i diag up left (c == cb)) cs prev
  | _, _, _, _, _ => []

def nextRow (a : List Char) (cb : Char) (j lo hi : Nat) : List Nat → List Nat
  | [] => []
  | diag :: prev => (j + 1) :: rowCells cb lo hi 1 diag (j + 1) a prev

-- The rows from index `j` on, or `none` when one is over budget everywhere.
def rows (build : Build) (a : List Char) (k : Nat) :
    Nat → List Nat → List Char → Except Panic (Option (List Nat))
  | _, prev, [] => .ok (some prev)
  | j, prev, cb :: b => do
      let reach ← build.word (j + 1 + k)
      let cur := nextRow a cb j (j + 1 - k) (min reach a.length) prev
      if k < cur.tail.foldl min usizeMax ∧ k < j + 1 then return none
      else rows build a k (j + 1) cur b

-- The distance read from the last row, for `a` the shorter sequence.
def bandedWithin (build : Build) (a b : List Char) (k : Nat) : Except Panic (Option Nat) := do
  match ← rows build a k 0 (List.range (a.length + 1)) b with
  | none => return none
  | some prev =>
    match prev[a.length]? with
    | none => .error .outOfBounds
    | some d => return if d ≤ k then some d else none

def levenshteinWithin (build : Build) (a b : List Char) (k : Nat) : Except Panic (Option Nat) :=
  if k < max (a.length - b.length) (b.length - a.length) then return none
  else if a.length ≤ b.length then bandedWithin build a b k
  else bandedWithin build b a k

section Band

variable {k d v : Nat}

-- A cell is never below its distance, and is the distance when that is within the
-- budget.
def Close (k d v : Nat) : Prop := d ≤ v ∧ (d ≤ k → v = d)

theorem Close.poison (hd : d ≤ usizeMax) (hk : k < d) : Close k d usizeMax :=
  ⟨hd, fun h => absurd h (Nat.not_le.mpr hk)⟩

theorem Close.le_iff (h : Close k d v) : v ≤ k ↔ d ≤ k := by
  constructor
  · exact fun hv => h.1.trans hv
  · exact fun hd => (h.2 hd).trans_le hd

theorem Close.least {d₁ d₂ d₃ v₁ v₂ v₃ cost : Nat} (h₁ : Close k d₁ v₁) (h₂ : Close k d₂ v₂)
    (h₃ : Close k d₃ v₃) (hd : d = min (min (d₁ + cost) (d₂ + 1)) (d₃ + 1))
    (hmax : d ≤ usizeMax) : Close k d
      (min (min (saturatingAdd v₁ cost) (saturatingAdd v₂ 1)) (saturatingAdd v₃ 1)) := by
  obtain ⟨hle₁, heq₁⟩ := h₁
  obtain ⟨hle₂, heq₂⟩ := h₂
  obtain ⟨hle₃, heq₃⟩ := h₃
  simp only [saturatingAdd]
  generalize usizeMax = top at hmax ⊢
  refine ⟨by omega, fun hk => ?_⟩
  -- the neighbour that gives the distance is within the budget itself
  have hsome : d = d₁ + cost ∨ d = d₂ + 1 ∨ d = d₃ + 1 := by omega
  rcases hsome with h | h | h
  · have := heq₁ (by omega)
    omega
  · have := heq₂ (by omega)
    omega
  · have := heq₃ (by omega)
    omega

variable {before bs : List Char} {c cb : Char} {diag up left : Nat}

theorem close_cell (hdiag : Close k (levenshtein before bs) diag)
    (hup : Close k (levenshtein (before ++ [c]) bs) up)
    (hleft : Close k (levenshtein before (bs ++ [cb])) left) (width : Nat)
    (hwidth : before.length + 1 ≤ width) (hmax : max width (bs.length + 1) ≤ usizeMax) :
    Close k (levenshtein (before ++ [c]) (bs ++ [cb]))
      (cell (bs.length + 1 - k) (min (bs.length + 1 + k) width) (before.length + 1) diag up left
        (c == cb)) := by
  have hbound : levenshtein (before ++ [c]) (bs ++ [cb]) ≤ usizeMax := by
    have := levenshtein_le_max (before ++ [c]) (bs ++ [cb])
    simp only [List.length_append, List.length_singleton] at this
    omega
  have hgap := length_le_levenshtein (before ++ [c]) (bs ++ [cb])
  have hgap' := length_le_levenshtein (bs ++ [cb]) (before ++ [c])
  rw [levenshtein_comm (bs ++ [cb])] at hgap'
  simp only [List.length_append, List.length_singleton] at hgap hgap'
  rw [cell]
  split
  · exact .poison hbound (by omega)
  · refine .least hdiag hup hleft ?_ hbound
    rw [levenshtein_concat]
    simp only [beq_iff_eq]

def distances (before : List Char) : List Char → List Char → List Nat
  | [], _ => []
  | c :: cs, bs => levenshtein (before ++ [c]) bs :: distances (before ++ [c]) cs bs

theorem close_rowCells {cs : List Char} {prev : List Nat} {width : Nat}
    (hdiag : Close k (levenshtein before bs) diag)
    (hleft : Close k (levenshtein before (bs ++ [cb])) left)
    (hprev : List.Forall₂ (Close k) (distances before cs bs) prev)
    (hwidth : before.length + cs.length = width) (hmax : max width (bs.length + 1) ≤ usizeMax) :
    List.Forall₂ (Close k) (distances before cs (bs ++ [cb]))
      (rowCells cb (bs.length + 1 - k) (min (bs.length + 1 + k) width) (before.length + 1) diag
        left cs prev) := by
  induction cs generalizing before diag left prev with
  | nil => exact .nil
  | cons c cs ih =>
    cases hprev with
    | @cons _ up _ prev hup hprev =>
      rw [List.length_cons] at hwidth
      have hcell := close_cell hdiag hup hleft width (by omega) hmax
      have hlen : (before ++ [c]).length = before.length + 1 := by simp
      refine .cons hcell ?_
      have hrest := ih hup hcell hprev (by omega)
      rwa [hlen] at hrest

def Row (k : Nat) (a bs : List Char) (prev : List Nat) : Prop :=
  List.Forall₂ (Close k) (levenshtein [] bs :: distances [] a bs) prev

variable {a b : List Char} {prev : List Nat}

theorem distances_nil_right (before cs : List Char) :
    distances before cs [] = List.range' (before.length + 1) cs.length := by
  induction cs generalizing before with
  | nil => rfl
  | cons c cs ih =>
    have hlen : (before ++ [c]).length = before.length + 1 := by simp
    rw [distances, ih, levenshtein_nil_right, hlen, List.length_cons, List.range'_succ]

theorem row_range (k : Nat) (a : List Char) : Row k a [] (List.range (a.length + 1)) := by
  rw [Row, distances_nil_right, levenshtein_nil_left, List.range_eq_range', List.range'_succ]
  exact List.forall₂_same.mpr fun _ _ => ⟨le_rfl, fun _ => rfl⟩

theorem Row.next (h : Row k a bs prev) (cb : Char)
    (hmax : max a.length (bs.length + 1) ≤ usizeMax) :
    Row k a (bs ++ [cb])
      (nextRow a cb bs.length (bs.length + 1 - k) (min (bs.length + 1 + k) a.length) prev) := by
  cases h with
  | @cons _ diag _ prev hdiag hprev =>
    have hleft : Close k (levenshtein [] (bs ++ [cb])) (bs.length + 1) := by
      rw [levenshtein_nil_left, List.length_append, List.length_singleton]
      exact ⟨le_rfl, fun _ => rfl⟩
    exact .cons hleft (close_rowCells hdiag hleft hprev (Nat.zero_add _) hmax)

theorem mem_distances (before cs bs : List Char) (i : Nat) :
    levenshtein (before ++ cs.take i) bs ∈ levenshtein before bs :: distances before cs bs := by
  induction cs generalizing before i with
  | nil => simp [distances]
  | cons c cs ih =>
    cases i with
    | zero => simp
    | succ i =>
      rw [List.take_succ_cons, List.append_cons]
      exact List.mem_cons_of_mem _ (ih (before ++ [c]) i)

theorem lt_foldl_min {m : Nat} {xs : List Nat} (h : k < xs.foldl min m) :
    k < m ∧ ∀ x ∈ xs, k < x := by
  induction xs generalizing m with
  | nil => exact ⟨h, by simp⟩
  | cons x xs ih =>
    obtain ⟨hm, hxs⟩ := ih h
    exact ⟨by omega, List.forall_mem_cons.mpr ⟨by omega, hxs⟩⟩

theorem lt_of_close {ds vs : List Nat} (h : List.Forall₂ (Close k) ds vs) (hvs : ∀ v ∈ vs, k < v) :
    ∀ d ∈ ds, k < d := by
  induction h with
  | nil => simp
  | @cons d v _ _ hclose _ ih =>
    obtain ⟨hv, hvs⟩ := List.forall_mem_cons.mp hvs
    exact List.forall_mem_cons.mpr
      ⟨Nat.not_le.mp fun hd => Nat.not_le.mpr hv (hclose.le_iff.mpr hd), ih hvs⟩

theorem Row.exhausted (h : Row k a bs prev) (rest : List Char)
    (hbest : k < prev.tail.foldl min usizeMax) (hfirst : k < bs.length) :
    k < levenshtein a (bs ++ rest) := by
  have hall : ∀ d ∈ levenshtein [] bs :: distances [] a bs, k < d := by
    cases h with
    | @cons _ first _ cells _ hcells =>
      exact List.forall_mem_cons.mpr
        ⟨by rwa [levenshtein_nil_left], lt_of_close hcells (lt_foldl_min hbest).2⟩
  obtain ⟨i, -, hi⟩ := exists_take_levenshtein_le a (bs ++ rest) bs.length
  rw [List.take_left] at hi
  exact (hall _ (mem_distances [] a bs i)).trans_le hi

theorem close_last {before cs : List Char}
    (h : List.Forall₂ (Close k) (levenshtein before bs :: distances before cs bs) prev) :
    ∃ v, prev[cs.length]? = some v ∧ Close k (levenshtein (before ++ cs) bs) v := by
  induction cs generalizing before prev with
  | nil =>
    cases h with
    | @cons _ v _ _ hv _ => exact ⟨v, rfl, by rwa [List.append_nil]⟩
  | cons c cs ih =>
    cases h with
    | cons _ hrest =>
      obtain ⟨v, hv, hclose⟩ := ih hrest
      exact ⟨v, hv, by rwa [List.append_cons]⟩

theorem rows_spec (build : Build) (hrow : Row k a bs prev)
    (hmax : max a.length (bs ++ b).length + k ≤ usizeMax) :
    ∃ last, rows build a k bs.length prev b = .ok last ∧
      match last with
      | none => k < levenshtein a (bs ++ b)
      | some prev => Row k a (bs ++ b) prev := by
  induction b generalizing bs prev with
  | nil => exact ⟨_, rfl, by simpa using hrow⟩
  | cons cb b ih =>
    have hlen : (bs ++ [cb]).length = bs.length + 1 := by simp
    rw [List.length_append, List.length_cons] at hmax
    have hword : build.word (bs.length + 1 + k) = .ok (bs.length + 1 + k) := if_pos (by omega)
    have hnext := hrow.next cb (by omega)
    rw [rows, hword]
    simp only [bind, Except.bind]
    split
    · next hover =>
        refine ⟨none, rfl, ?_⟩
        have := hnext.exhausted b hover.1 (by rw [hlen]; exact hover.2)
        simpa using this
    · have hrest : max a.length (bs ++ [cb] ++ b).length + k ≤ usizeMax := by
        rw [List.length_append, hlen]
        omega
      obtain ⟨last, hlast, hspec⟩ := ih hnext hrest
      rw [hlen] at hlast
      exact ⟨last, hlast, by simpa using hspec⟩

end Band

variable (build : Build) (a b : List Char) (k : Nat)

theorem bandedWithin_eq (hmax : max a.length b.length + k ≤ usizeMax) :
    bandedWithin build a b k =
      .ok (if levenshtein a b ≤ k then some (levenshtein a b) else none) := by
  obtain ⟨last, hlast, hspec⟩ := rows_spec (b := b) build (row_range k a) (by simpa using hmax)
  rw [bandedWithin, show rows build a k 0 (List.range (a.length + 1)) b = .ok last from hlast]
  simp only [bind, Except.bind]
  cases last with
  | none =>
    have hover : ¬ levenshtein a b ≤ k := Nat.not_le.mpr hspec
    rw [if_neg hover]
    rfl
  | some prev =>
    obtain ⟨v, hv, hclose⟩ := close_last hspec
    simp only [hv]
    by_cases hk : levenshtein a b ≤ k
    · rw [if_pos hk, if_pos (hclose.le_iff.mpr hk), hclose.2 hk]
      rfl
    · rw [if_neg hk, if_neg (fun h => hk (hclose.le_iff.mp h))]
      rfl

theorem levenshteinWithin_spec (hmax : max a.length b.length + k ≤ usizeMax) :
    levenshteinWithin build a b k =
      .ok (if levenshtein a b ≤ k then some (levenshtein a b) else none) := by
  rw [levenshteinWithin]
  split
  · next hgap =>
      have h := length_le_levenshtein a b
      have h' := length_le_levenshtein b a
      rw [levenshtein_comm b a] at h'
      rw [if_neg (by omega)]
      rfl
  · split
    · exact bandedWithin_eq build a b k hmax
    · rw [bandedWithin_eq build b a k (by rwa [max_comm]), levenshtein_comm]

end WaveDb.Fuzzy
