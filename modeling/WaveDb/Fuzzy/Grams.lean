import WaveDb.Lib.BigEndian
import WaveDb.Fuzzy.Distance

-- Decomposition into grams, and the filters that come before a record is read.
namespace WaveDb.Fuzzy

open WaveDb.Lib

def sentinel : Nat := 2 ^ 32 - 1

def padded (normalized : List Char) (n : Nat) : List Nat :=
  List.replicate (n - 1) sentinel ++ normalized.map Char.toNat ++ List.replicate (n - 1) sentinel

-- A window as the key prefix a scan matches on: four bytes for each codepoint.
def gramKey (window : List Nat) : List UInt8 := window.flatMap (beBytes 4)

abbrev GramSet := Finset (List UInt8)

def gramPrefixes (normalized : List Char) (n : Nat) : GramSet :=
  ((windows (max n 1) (padded normalized (max n 1))).map gramKey).toFinset

def saturatingLen (len : Nat) : UInt8 := if len < 256 then UInt8.ofNat len else 255

def fieldKey (pre : List UInt8) (len : Nat) : List UInt8 := pre ++ [saturatingLen len]

def keyLen (field : List UInt8) : Option Nat := field.getLast?.map UInt8.toNat

-- The gap between a query's length and a stored one, both saturated.
def lengthGap (queryLen stored : Nat) : Nat :=
  max ((saturatingLen queryLen).toNat - min stored 255)
    (min stored 255 - (saturatingLen queryLen).toNat)

inductive Mode
  | distance (k : Nat)
  | similarity (t : Float)
  | contains (t : Float)

-- The lookup by a ratio: a ceiling, so that a candidate on the boundary survives.
def ratioThreshold (t : Float) (total : Nat) : Nat :=
  let t := if t < 0 then 0 else if 1 < t then 1 else t
  min (max (t * total.toFloat).ceil.toUInt64.toNat 1) total

-- How many of the query's `total` distinct grams a candidate must share.
def Mode.threshold (build : Build) (total n : Nat) : Mode → Except Panic Nat
  | .distance k => do
      let lost ← build.word (n * k)
      return total - lost
  | .similarity t => return ratioThreshold t total
  | .contains t => return ratioThreshold t total

def Mode.allowsLengthGap (gap : Nat) : Mode → Bool
  | .distance k => gap ≤ k
  | .similarity _ => true
  | .contains _ => true

theorem toNat_lt (c : Char) : c.toNat < 2 ^ 32 := c.val.toNat_lt

theorem padded_lt {normalized : List Char} {n v : Nat} (h : v ∈ padded normalized n) :
    v < 256 ^ 4 := by
  simp only [padded, List.mem_append, List.mem_replicate, List.mem_map] at h
  rcases h with (⟨-, rfl⟩ | ⟨c, -, rfl⟩) | ⟨-, rfl⟩
  · decide
  · exact toNat_lt c
  · decide

@[simp] theorem length_gramKey (window : List Nat) : (gramKey window).length = 4 * window.length := by
  induction window with
  | nil => rfl
  | cons v window ih =>
    rw [gramKey, List.flatMap_cons, List.length_append, length_beBytes, List.length_cons]
    rw [gramKey] at ih
    omega

theorem gramKey_injective {u v : List Nat} (hu : ∀ x ∈ u, x < 256 ^ 4) (hv : ∀ x ∈ v, x < 256 ^ 4)
    (h : gramKey u = gramKey v) : u = v := by
  have hlen := congrArg List.length h
  rw [length_gramKey, length_gramKey] at hlen
  induction u generalizing v with
  | nil => exact (List.length_eq_zero_iff.mp (by simpa using hlen.symm)).symm
  | cons x u ih =>
    cases v with
    | nil => simp at hlen
    | cons y v =>
      obtain ⟨hx, hu⟩ := List.forall_mem_cons.mp hu
      obtain ⟨hy, hv⟩ := List.forall_mem_cons.mp hv
      simp only [gramKey, List.flatMap_cons] at h
      obtain ⟨hhead, htail⟩ := List.append_inj h (by simp)
      rw [(beBytes_inj hx hy).mp hhead, ih hu hv htail (by simpa using hlen)]

theorem gramPrefixes_eq {n : Nat} (hn : 1 ≤ n) (normalized : List Char) :
    gramPrefixes normalized n = (windows n (padded normalized n)).toFinset.image gramKey := by
  rw [gramPrefixes, max_eq_left hn]
  ext w
  simp

theorem gramKey_injOn (q s : List Char) (n : Nat) :
    Set.InjOn gramKey ((windows n (padded q n)).toFinset ∪ (windows n (padded s n)).toFinset) := by
  have hlt : ∀ w ∈ (windows n (padded q n)).toFinset ∪ (windows n (padded s n)).toFinset,
      ∀ v ∈ w, v < 256 ^ 4 := by
    intro w hw v hv
    rw [Finset.mem_union, List.mem_toFinset, List.mem_toFinset] at hw
    rcases hw with hw | hw <;>
      exact padded_lt ((mem_windows_iff.mp hw).1.subset hv)
  intro u hu v hv h
  exact gramKey_injective (hlt u (by simpa using hu)) (hlt v (by simpa using hv)) h

theorem card_gramPrefixes_le {n : Nat} (hn : 1 ≤ n) (q s : List Char) :
    (gramPrefixes q n).card ≤
      (gramPrefixes q n ∩ gramPrefixes s n).card + n * levenshtein q s := by
  have hinj := gramKey_injOn q s n
  rw [← Finset.coe_union] at hinj
  have hwindows := card_windows_le hn (q.map Char.toNat) (s.map Char.toNat)
    (List.replicate (n - 1) sentinel) (List.replicate (n - 1) sentinel)
  have hmap := Nat.mul_le_mul_left n (levenshtein_map_le q s Char.toNat)
  rw [gramPrefixes_eq hn, gramPrefixes_eq hn, ← Finset.image_inter_of_injOn _ _ (by simpa using hinj),
    Finset.card_image_of_injOn (hinj.mono (by simp)),
    Finset.card_image_of_injOn (hinj.mono (by
      intro w hw
      simp at hw
      simp [hw.1]))]
  simp only [padded]
  omega

theorem lengthGap_le {m len k : Nat} (h : m ≤ len + k) (h' : len ≤ m + k) (pre : List UInt8) :
    ∃ stored, keyLen (fieldKey pre len) = some stored ∧ lengthGap m stored ≤ k := by
  have hsat : ∀ l, (saturatingLen l).toNat = min l 255 := by
    intro l
    rw [saturatingLen]
    split
    · rw [UInt8.toNat_ofNat_of_lt' (by assumption)]
      omega
    · change 255 = _
      omega
  refine ⟨min len 255, ?_, ?_⟩
  · rw [keyLen, fieldKey, List.getLast?_concat, Option.map_some, hsat]
  · rw [lengthGap, hsat]
    omega

-- A text within the distance shares the grams the count filter asks for, and
-- passes the length filter.
theorem gram_filters_keep_matches (build : Build) {n k : Nat} {q s : List Char} (hn : 1 ≤ n)
    (hk : n * k < 2 ^ 64) (hd : levenshtein q s ≤ k) :
    (∃ threshold, (Mode.distance k).threshold build (gramPrefixes q n).card n = .ok threshold ∧
      threshold ≤ (gramPrefixes q n ∩ gramPrefixes s n).card) ∧
    ∀ pre, ∃ stored, keyLen (fieldKey pre s.length) = some stored ∧
      lengthGap q.length stored ≤ k := by
  have hword : build.word (n * k) = .ok (n * k) := if_pos (Nat.le_sub_one_of_lt hk)
  refine ⟨⟨(gramPrefixes q n).card - n * k, ?_, ?_⟩, fun pre => ?_⟩
  · rw [Mode.threshold, hword]
    rfl
  · have hshared := card_gramPrefixes_le hn q s
    have hlost := Nat.mul_le_mul_left n hd
    omega
  · have hq := length_le_levenshtein q s
    have hs := length_le_levenshtein s q
    rw [levenshtein_comm s q] at hs
    exact lengthGap_le (by omega) (by omega) pre

theorem gram_filters_keep_matches_smith :
    ∃ threshold, (Mode.distance 1).threshold .debug (gramPrefixes ['s', 'i'] 3).card 3 =
      .ok threshold ∧ threshold ≤ (gramPrefixes ['s', 'i'] 3 ∩ gramPrefixes ['s', 'y'] 3).card :=
  (gram_filters_keep_matches .debug (by decide) (by decide) (by simp [levenshtein])).1

end WaveDb.Fuzzy
