import WaveDb.Storage.Directory

-- The routing of a directory on 64-bit words, as the code computes it.
namespace WaveDb.Storage

namespace Word

def splitBit (dirLen : UInt64) : UInt64 := dirLen.log2

def base (dirLen : UInt64) : UInt64 := 1 <<< splitBit dirLen

def nextSplitBucket (dirLen : UInt64) : UInt64 := dirLen - base dirLen

def bucketIndex (dirLen hash : UInt64) : UInt64 :=
  if hash &&& (base dirLen - 1) < dirLen - base dirLen then
    hash &&& ((base dirLen <<< 1) - 1)
  else hash &&& (base dirLen - 1)

-- Whether a record leaves the bucket that splits: bit `level` of its hash.
def moves (level hash : UInt64) : Bool := (hash >>> level) &&& 1 != 0

section Naturals

variable {dirLen : UInt64}

theorem toNat_splitBit (dirLen : UInt64) :
    (splitBit dirLen).toNat = Storage.splitBit dirLen.toNat := rfl

theorem splitBit_lt (dirLen : UInt64) : Storage.splitBit dirLen.toNat < 64 := by
  by_cases h : dirLen.toNat = 0
  · simp [Storage.splitBit, h]
  · have hlt : dirLen.toNat < 2 ^ 64 := dirLen.toNat_lt
    exact (Nat.log2_lt h).mpr hlt

theorem toNat_base (dirLen : UInt64) :
    (base dirLen).toNat = 2 ^ Storage.splitBit dirLen.toNat := by
  have hlt := splitBit_lt dirLen
  have hpow : 2 ^ Storage.splitBit dirLen.toNat < 2 ^ 64 := Nat.pow_lt_pow_right (by decide) hlt
  rw [base, UInt64.toNat_shiftLeft, toNat_splitBit, Nat.mod_eq_of_lt hlt, Nat.shiftLeft_eq,
    UInt64.toNat_one, Nat.one_mul, Nat.mod_eq_of_lt hpow]

theorem toNat_mask (hash mask : UInt64) (level : Nat) (h : mask.toNat = 2 ^ level - 1) :
    (hash &&& mask).toNat = hash.toNat % 2 ^ level := by
  rw [UInt64.toNat_and, h, Nat.and_two_pow_sub_one_eq_mod]

theorem toNat_pred {word : UInt64} (h : 0 < word.toNat) : (word - 1).toNat = word.toNat - 1 := by
  have hle : (1 : UInt64) ≤ word := UInt64.le_iff_toNat_le.mpr h
  rw [UInt64.toNat_sub_of_le _ _ hle, UInt64.toNat_one]

variable (hpos : 0 < dirLen.toNat)

include hpos

theorem toNat_nextSplitBucket :
    (nextSplitBucket dirLen).toNat = Storage.nextSplitBucket dirLen.toNat := by
  have hle : base dirLen ≤ dirLen := by
    rw [UInt64.le_iff_toNat_le, toNat_base]
    exact (Storage.splitBit_spec hpos).1
  rw [nextSplitBucket, UInt64.toNat_sub_of_le _ _ hle, toNat_base, Storage.nextSplitBucket]

theorem toNat_bucketIndex (hash : UInt64) (hlen : dirLen.toNat < 2 ^ 63) :
    (bucketIndex dirLen hash).toNat = Storage.bucketIndex dirLen.toNat hash.toNat := by
  have hbase := toNat_base dirLen
  have hbasepos : 0 < 2 ^ Storage.splitBit dirLen.toNat := Nat.two_pow_pos _
  have hbaselt : 2 ^ Storage.splitBit dirLen.toNat < 2 ^ 63 :=
    (Storage.splitBit_spec hpos).1.trans_lt hlen
  have hlow := toNat_mask hash (base dirLen - 1) (Storage.splitBit dirLen.toNat)
    (by rw [toNat_pred (by omega), hbase])
  have htwice : (base dirLen <<< 1).toNat = 2 ^ (Storage.splitBit dirLen.toNat + 1) := by
    rw [UInt64.toNat_shiftLeft, hbase, UInt64.toNat_one, Nat.mod_eq_of_lt (by decide : 1 < 64),
      Nat.shiftLeft_eq, Nat.pow_one, ← Nat.pow_succ, Nat.mod_eq_of_lt]
    rw [Nat.pow_succ]
    omega
  have hhigh := toNat_mask hash ((base dirLen <<< 1) - 1) (Storage.splitBit dirLen.toNat + 1)
    (by rw [toNat_pred (by rw [htwice]; exact Nat.two_pow_pos _), htwice])
  have hnext := toNat_nextSplitBucket hpos
  rw [nextSplitBucket, Storage.nextSplitBucket] at hnext
  rw [bucketIndex, Storage.bucketIndex]
  simp only [UInt64.lt_iff_toNat_lt, hlow, hnext]
  split
  · rw [hhigh, Nat.pow_succ, Nat.mul_comm]
  · exact hlow

omit hpos in
theorem moves_iff (hash : UInt64) :
    moves (splitBit dirLen) hash = true ↔
      hash.toNat / 2 ^ Storage.splitBit dirLen.toNat % 2 = 1 := by
  have hword : ((hash >>> splitBit dirLen) &&& 1).toNat =
      hash.toNat / 2 ^ Storage.splitBit dirLen.toNat % 2 := by
    rw [UInt64.toNat_and, UInt64.toNat_one, Nat.and_one_is_mod, UInt64.toNat_shiftRight,
      toNat_splitBit, Nat.mod_eq_of_lt (splitBit_lt dirLen), Nat.shiftRight_eq_div_pow]
  rw [moves, bne_iff_ne, Ne, ← UInt64.toNat_inj, hword, UInt64.toNat_zero]
  omega

end Naturals

-- Growing by a bucket moves hashes out of one bucket only, by one bit.
theorem linear_hashing_step (dirLen hash : UInt64) (hpos : 1 ≤ dirLen) (hle : dirLen ≤ 2 ^ 32) :
    bucketIndex dirLen hash < dirLen ∧
    (bucketIndex (dirLen + 1) hash ≠ bucketIndex dirLen hash →
      bucketIndex dirLen hash = nextSplitBucket dirLen) ∧
    (bucketIndex dirLen hash = nextSplitBucket dirLen →
      (bucketIndex (dirLen + 1) hash = dirLen ↔ moves (splitBit dirLen) hash = true)) := by
  have hpos' : 0 < dirLen.toNat := UInt64.le_iff_toNat_le.mp hpos
  have hle' : dirLen.toNat ≤ 2 ^ 32 := UInt64.le_iff_toNat_le.mp hle
  have hsucc : (dirLen + 1).toNat = dirLen.toNat + 1 := by
    rw [UInt64.toNat_add, UInt64.toNat_one, Nat.mod_eq_of_lt (by omega)]
  have hnow := toNat_bucketIndex hpos' hash (by omega)
  have hnext : (bucketIndex (dirLen + 1) hash).toNat = _ :=
    toNat_bucketIndex (by omega) hash (by omega)
  have hsplit := toNat_nextSplitBucket hpos'
  have hlt : Storage.bucketIndex dirLen.toNat hash.toNat < dirLen.toNat := bucketIndex_lt hpos'
  have hstep : Storage.bucketIndex (dirLen.toNat + 1) hash.toNat = _ := bucketIndex_succ hpos'
  rw [hsucc, hstep] at hnext
  rw [UInt64.lt_iff_toNat_lt, Ne, ← UInt64.toNat_inj, ← UInt64.toNat_inj, ← UInt64.toNat_inj,
    hnow, hnext, hsplit, moves_iff]
  refine ⟨hlt, fun hne => ?_, fun heq => ?_⟩
  · by_contra h
    exact hne (if_neg fun hboth => h hboth.1)
  · by_cases hbit : hash.toNat / 2 ^ Storage.splitBit dirLen.toNat % 2 = 1
    · simp [heq, hbit]
    · simp only [heq, hbit, and_false, if_false, iff_false]
      omega

-- Length 5, whose next bucket to split is 1: the hash 13 moves on to 5.
theorem linear_hashing_step_sample :
    (1 : UInt64) ≤ 5 ∧ (5 : UInt64) ≤ 2 ^ 32 ∧ bucketIndex 5 13 = nextSplitBucket 5 ∧
      bucketIndex 6 13 = 5 := by
  have hpos : (1 : UInt64) ≤ 5 := by decide
  have hle : (5 : UInt64) ≤ 2 ^ 32 := by decide
  have hsource : bucketIndex 5 13 = nextSplitBucket 5 := by decide
  have hstep := (linear_hashing_step 5 13 hpos hle).2.2 hsource
  exact ⟨hpos, hle, hsource, hstep.mpr (by decide)⟩

end Word

end WaveDb.Storage
