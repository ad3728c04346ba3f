import Mathlib

-- A byte stream in chunks: what a reader gets does not depend on where they are cut.
namespace WaveDb.Lib

variable {α : Type}

-- One read into a buffer of `size`: the front of what has arrived. Nothing is
-- read only at the end of the stream.
def readSome (size : Nat) : List (List α) → List α × List (List α)
  | [] => ([], [])
  | [] :: rest => readSome size rest
  | (a :: chunk) :: rest => ((a :: chunk).take size, (a :: chunk).drop size :: rest)

-- Reads until the buffer is full. `none` is the end of the stream before that.
def readExact : Nat → List (List α) → Option (List α × List (List α))
  | 0, chunks => some ([], chunks)
  | _ + 1, [] => none
  | size + 1, chunk :: rest =>
    if size + 1 ≤ chunk.length then some (chunk.take (size + 1), chunk.drop (size + 1) :: rest)
    else (readExact (size + 1 - chunk.length) rest).map fun r => (chunk ++ r.1, r.2)

theorem readSome_flatten (size : Nat) (chunks : List (List α)) :
    (readSome size chunks).1 ++ (readSome size chunks).2.flatten = chunks.flatten := by
  induction chunks with
  | nil => rfl
  | cons chunk rest ih =>
    cases chunk with
    | nil => exact ih
    | cons a chunk =>
      rw [readSome, List.flatten_cons, List.flatten_cons, ← List.append_assoc,
        List.take_append_drop]

theorem length_readSome_le (size : Nat) (chunks : List (List α)) :
    (readSome size chunks).1.length ≤ size := by
  induction chunks with
  | nil => exact Nat.zero_le _
  | cons chunk rest ih =>
    cases chunk with
    | nil => exact ih
    | cons a chunk => exact List.length_take_le _ _

theorem readSome_eq_nil_iff {size : Nat} (hsize : 0 < size) (chunks : List (List α)) :
    (readSome size chunks).1 = [] ↔ chunks.flatten = [] := by
  induction chunks with
  | nil => exact iff_of_true rfl rfl
  | cons chunk rest ih =>
    cases chunk with
    | nil => exact ih
    | cons a chunk =>
      refine iff_of_false ?_ (List.cons_ne_nil _ _)
      obtain ⟨size, rfl⟩ := Nat.exists_eq_succ_of_ne_zero hsize.ne'
      exact List.cons_ne_nil _ _

theorem readSome_one {chunks : List (List α)} {a : α} {after : List α} (h : chunks.flatten = a :: after) :
    ∃ rest, readSome 1 chunks = ([a], rest) ∧ rest.flatten = after := by
  have hflat := readSome_flatten 1 chunks
  have hlen := length_readSome_le 1 chunks
  have hne : (readSome 1 chunks).1 ≠ [] := by
    rw [Ne, readSome_eq_nil_iff Nat.one_pos, h]
    exact List.cons_ne_nil _ _
  obtain ⟨b, hb⟩ := List.length_eq_one_iff.mp
    (Nat.le_antisymm hlen (List.length_pos_iff.mpr hne))
  rw [hb, h, List.singleton_append] at hflat
  obtain ⟨rfl, hrest⟩ := List.cons.inj hflat
  exact ⟨_, Prod.ext hb rfl, hrest⟩

theorem readExact_eq_none_iff {size : Nat} {chunks : List (List α)} :
    readExact size chunks = none ↔ chunks.flatten.length < size := by
  induction chunks generalizing size with
  | nil => cases size <;> simp [readExact]
  | cons chunk rest ih =>
    cases size with
    | zero => simp [readExact]
    | succ size =>
      rw [readExact, List.flatten_cons, List.length_append]
      split
      · exact iff_of_false nofun (by omega)
      · rw [Option.map_eq_none_iff, ih]
        omega

theorem readExact_eq_some {size : Nat} {chunks rest : List (List α)} {bytes : List α}
    (h : readExact size chunks = some (bytes, rest)) :
    bytes.length = size ∧ bytes ++ rest.flatten = chunks.flatten := by
  induction chunks generalizing size bytes with
  | nil =>
    cases size with
    | zero =>
      cases h
      exact ⟨rfl, rfl⟩
    | succ size => exact nomatch h
  | cons chunk chunks ih =>
    cases size with
    | zero =>
      cases h
      exact ⟨rfl, rfl⟩
    | succ size =>
      rw [readExact] at h
      split at h
      · rename_i hle
        cases h
        refine ⟨List.length_take_of_le hle, ?_⟩
        rw [List.flatten_cons, List.flatten_cons, ← List.append_assoc, List.take_append_drop]
      · rename_i hlt
        obtain ⟨⟨got, rest'⟩, hgot, heq⟩ := Option.map_eq_some_iff.mp h
        cases heq
        obtain ⟨hlen, hflat⟩ := ih hgot
        refine ⟨?_, ?_⟩
        · rw [List.length_append, hlen]
          omega
        · rw [List.append_assoc, hflat, List.flatten_cons]

theorem readExact_append {size : Nat} {chunks : List (List α)} {bytes after : List α}
    (h : chunks.flatten = bytes ++ after) (hlen : bytes.length = size) :
    ∃ rest, readExact size chunks = some (bytes, rest) ∧ rest.flatten = after := by
  cases hread : readExact size chunks with
  | none =>
    have hshort := readExact_eq_none_iff.mp hread
    rw [h, List.length_append] at hshort
    omega
  | some r =>
    obtain ⟨got, rest⟩ := r
    obtain ⟨hgot, hflat⟩ := readExact_eq_some hread
    obtain ⟨rfl, hrest⟩ := List.append_inj (hflat.trans h) (hgot.trans hlen.symm)
    exact ⟨rest, rfl, hrest⟩

end WaveDb.Lib
