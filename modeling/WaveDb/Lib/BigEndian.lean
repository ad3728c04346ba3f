import Mathlib

-- Big-endian bytes: their lexicographic order is the order of the numbers.
namespace WaveDb.Lib

instance linearOrderUInt8 : LinearOrder UInt8 where
  le_refl _ := UInt8.le_refl _
  le_trans _ _ _ := UInt8.le_trans
  le_antisymm _ _ := UInt8.le_antisymm
  le_total := UInt8.le_total
  lt_iff_le_not_ge a b := by
    rw [UInt8.not_le]
    exact ⟨fun h => ⟨UInt8.le_of_lt h, h⟩, And.right⟩
  toDecidableLE := inferInstance
  toDecidableEq := inferInstance
  toDecidableLT := inferInstance

def beBytes : Nat → Nat → List UInt8
  | 0, _ => []
  | width + 1, value => UInt8.ofNat (value / 256 ^ width) :: beBytes width (value % 256 ^ width)

def ofBeBytes : List UInt8 → Nat
  | [] => 0
  | byte :: rest => byte.toNat * 256 ^ rest.length + ofBeBytes rest

@[simp] theorem length_beBytes (width value : Nat) : (beBytes width value).length = width := by
  induction width generalizing value with
  | zero => rfl
  | succ width ih => simp [beBytes, ih]

theorem ofBeBytes_lt (bytes : List UInt8) : ofBeBytes bytes < 256 ^ bytes.length := by
  induction bytes with
  | nil => simp [ofBeBytes]
  | cons byte rest ih =>
    have hbyte := byte.toNat_lt
    calc ofBeBytes (byte :: rest) < byte.toNat * 256 ^ rest.length + 256 ^ rest.length := by
          rw [ofBeBytes]
          omega
      _ = (byte.toNat + 1) * 256 ^ rest.length := by ring
      _ ≤ 256 * 256 ^ rest.length := Nat.mul_le_mul_right _ (by omega)
      _ = 256 ^ (byte :: rest).length := by rw [List.length_cons, Nat.pow_succ']

theorem beBytes_ofBeBytes (bytes : List UInt8) :
    beBytes bytes.length (ofBeBytes bytes) = bytes := by
  induction bytes with
  | nil => rfl
  | cons byte rest ih =>
    have hpos : 0 < 256 ^ rest.length := by positivity
    have hlt := ofBeBytes_lt rest
    have hdiv : ofBeBytes (byte :: rest) / 256 ^ rest.length = byte.toNat := by
      rw [ofBeBytes, Nat.mul_comm, Nat.mul_add_div hpos, Nat.div_eq_of_lt hlt, Nat.add_zero]
    have hmod : ofBeBytes (byte :: rest) % 256 ^ rest.length = ofBeBytes rest := by
      rw [ofBeBytes, Nat.mul_comm, Nat.mul_add_mod, Nat.mod_eq_of_lt hlt]
    rw [List.length_cons, beBytes, hdiv, hmod, ih, UInt8.ofNat_toNat]

theorem ofNat_lt_ofNat {m n : Nat} (hm : m < 256) (hn : n < 256) :
    UInt8.ofNat m < UInt8.ofNat n ↔ m < n := by
  rw [UInt8.lt_iff_toNat_lt, UInt8.toNat_ofNat_of_lt' hm, UInt8.toNat_ofNat_of_lt' hn]

theorem ofNat_inj {m n : Nat} (hm : m < 256) (hn : n < 256) :
    UInt8.ofNat m = UInt8.ofNat n ↔ m = n := by
  rw [← UInt8.toNat_inj, UInt8.toNat_ofNat_of_lt' hm, UInt8.toNat_ofNat_of_lt' hn]

theorem beBytes_append_lt {width m n : Nat} (hm : m < 256 ^ width) (hn : n < 256 ^ width)
    (xs ys : List UInt8) : beBytes width m ++ xs < beBytes width n ++ ys ↔
      m < n ∨ m = n ∧ xs < ys := by
  induction width generalizing m n with
  | zero =>
    obtain rfl : m = 0 := by omega
    obtain rfl : n = 0 := by omega
    simp [beBytes]
  | succ width ih =>
    have hpos : 0 < 256 ^ width := by positivity
    rw [Nat.pow_succ'] at hm hn
    have hm' : m / 256 ^ width < 256 := Nat.div_lt_of_lt_mul (by rwa [Nat.mul_comm])
    have hn' : n / 256 ^ width < 256 := Nat.div_lt_of_lt_mul (by rwa [Nat.mul_comm])
    rw [beBytes, beBytes, List.cons_append, List.cons_append, List.cons_lt_cons_iff,
      ofNat_lt_ofNat hm' hn', ofNat_inj hm' hn', ih (Nat.mod_lt _ hpos) (Nat.mod_lt _ hpos)]
    -- the order of the leading digits, then of the remainders
    have hmd := Nat.div_add_mod m (256 ^ width)
    have hnd := Nat.div_add_mod n (256 ^ width)
    have hmr := Nat.mod_lt m hpos
    have hnr := Nat.mod_lt n hpos
    generalize m / 256 ^ width = dm at *
    generalize n / 256 ^ width = dn at *
    generalize m % 256 ^ width = rm at *
    generalize n % 256 ^ width = rn at *
    generalize 256 ^ width = base at *
    subst hmd hnd
    rcases Nat.lt_trichotomy dm dn with h | rfl | h
    · have hlt : base * dm + rm < base * dn + rn := by nlinarith
      simp [h, hlt]
    · simp
    · have hlt : base * dn + rn < base * dm + rm := by nlinarith
      have hne : ¬ base * dm + rm = base * dn + rn := by omega
      simp [h.not_gt, h.ne', hlt.not_gt, hne]

theorem beBytes_lt {width m n : Nat} (hm : m < 256 ^ width) (hn : n < 256 ^ width) :
    beBytes width m < beBytes width n ↔ m < n := by
  simpa using beBytes_append_lt hm hn [] []

theorem beBytes_inj {width m n : Nat} (hm : m < 256 ^ width) (hn : n < 256 ^ width) :
    beBytes width m = beBytes width n ↔ m = n := by
  refine ⟨fun h => ?_, fun h => h ▸ rfl⟩
  rcases Nat.lt_trichotomy m n with hlt | heq | hgt
  · exact absurd h ((beBytes_lt hm hn).mpr hlt).ne
  · exact heq
  · exact absurd h.symm ((beBytes_lt hn hm).mpr hgt).ne

theorem ofBeBytes_beBytes {width n : Nat} (hn : n < 256 ^ width) :
    ofBeBytes (beBytes width n) = n := by
  have hback := beBytes_ofBeBytes (beBytes width n)
  have hlt := ofBeBytes_lt (beBytes width n)
  rw [length_beBytes] at hback hlt
  exact (beBytes_inj hlt hn).mp hback

theorem ofBeBytes_append (xs ys : List UInt8) :
    ofBeBytes (xs ++ ys) = ofBeBytes xs * 256 ^ ys.length + ofBeBytes ys := by
  induction xs with
  | nil => simp [ofBeBytes]
  | cons x xs ih =>
    rw [List.cons_append, ofBeBytes, ofBeBytes, ih, List.length_append, Nat.pow_add]
    ring

theorem ofBeBytes_zeros (n : Nat) : ofBeBytes (List.replicate n 0) = 0 := by
  induction n with
  | zero => rfl
  | succ n ih => simp [List.replicate_succ, ofBeBytes, ih]

theorem ofBeBytes_ones (n : Nat) : ofBeBytes (List.replicate n 0xFF) = 256 ^ n - 1 := by
  induction n with
  | zero => rfl
  | succ n ih =>
    have hpos : 0 < 256 ^ n := by positivity
    rw [List.replicate_succ, ofBeBytes, ih, List.length_replicate, Nat.pow_succ]
    change 255 * 256 ^ n + (256 ^ n - 1) = 256 ^ n * 256 - 1
    omega

theorem ofBeBytes_extends (start rest : List UInt8) :
    ofBeBytes (start ++ List.replicate rest.length 0) ≤ ofBeBytes (start ++ rest) ∧
      ofBeBytes (start ++ rest) ≤ ofBeBytes (start ++ List.replicate rest.length 0xFF) := by
  have hlt := ofBeBytes_lt rest
  simp only [ofBeBytes_append, ofBeBytes_zeros, ofBeBytes_ones, List.length_replicate]
  omega

end WaveDb.Lib
