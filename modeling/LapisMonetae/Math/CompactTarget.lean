import LapisMonetae.Ghostdag.Protocol
import LapisMonetae.Math.UintTheorems

/-!
# Compact targets

A difficulty target is written in 32 bits as a floating point number: a mantissa of three bytes,
the highest bit of which is a sign that must not be set, and an exponent that counts bytes.
-/

namespace LapisMonetae.Math

open Nat Uint

def Uint.fromU64 (value : UInt64) : Uint 4 := ⟨[value, 0, 0, 0], rfl⟩

def Uint.asU64 {n : ℕ} (self : Uint n) : UInt64 := self.limbs.headD 0

def fromCompactTargetBits : ℕ → Uint 4 :=
  Ghostdag.fromCompactTargetBitsWith (Uint.zero 4) fun mant expt =>
    (Uint.fromU64 (UInt64.ofNat mant)).shl expt

def compactTargetBits (self : Uint 4) : ℕ :=
  let size := (self.bits + 7) / 8
  let compact :=
    if size ≤ 3 then self.asU64.toNat * 2 ^ (8 * (3 - size)) % 2 ^ 64 % 2 ^ 32
    else (self.shr (8 * (size - 3))).asU64.toNat % 2 ^ 32
  if compact / 2 ^ 23 % 2 = 1 then compact / 2 ^ 8 ||| (size + 1) * 2 ^ 24
  else compact ||| size * 2 ^ 24

/-! ## Decoding -/

lemma Uint.asU64_toNat {n : ℕ} (a : Uint n) : a.asU64.toNat = a.value % 2 ^ 64 :=
  (limbsValue_mod a.limbs).symm

lemma Uint.shl_eq_mod {n : ℕ} (a : Uint n) (s : ℕ) : a.shl s = a.shl (s % (64 * n)) := by
  simp only [shl, overflowingShl, mod_mod]

/-- The decoding computes the number that the work of a header is computed from. -/
lemma fromCompactTargetBits_value (bits : ℕ) :
    (fromCompactTargetBits bits).value = Ghostdag.fromCompactTargetBits bits := by
  simp only [fromCompactTargetBits, Ghostdag.fromCompactTargetBits,
    Ghostdag.fromCompactTargetBitsWith, Ghostdag.shl256]
  generalize (if bits / 2 ^ 24 ≤ 3 then _ else _ : ℕ) = mant
  generalize (if bits / 2 ^ 24 ≤ 3 then _ else _ : ℕ) = expt
  by_cases hmant : 0x7FFFFF < mant
  · rw [if_pos hmant, if_pos hmant, zero_value]
  · have hvalue : (fromU64 (UInt64.ofNat mant)).value = mant := by
      show (UInt64.ofNat mant).toNat + 2 ^ 64 * 0 = mant
      rw [UInt64.toNat_ofNat', mul_zero, add_zero, mod_eq_of_lt (by omega)]
    rw [if_neg hmant, if_neg hmant, shl_eq_mod, shl_value _ (mod_lt _ (by norm_num)), hvalue]

/-- The number that the bits stand for. -/
def exactTarget (bits : ℕ) : ℕ :=
  let mantissa := bits % 2 ^ 24
  let exponent := bits / 2 ^ 24
  if exponent < 3 then mantissa / 256 ^ (3 - exponent) else mantissa * 256 ^ (exponent - 3)

lemma pow_256 (k : ℕ) : 256 ^ k = 2 ^ (8 * k) := by
  rw [pow_mul]
  norm_num

variable {bits m : ℕ} {target : ℕ} (t : Uint 4)

/-- A mantissa without the sign is shifted, modulo the range. -/
lemma fromCompactTargetBits_shift (hexponent : 3 < bits / 2 ^ 24)
    (hmant : bits % 2 ^ 24 ≤ 0x7FFFFF) : (fromCompactTargetBits bits).value =
      bits % 2 ^ 24 * 2 ^ (8 * ((bits / 2 ^ 24 - 3) % 32)) % 2 ^ 256 := by
  have hshift : 8 * (bits / 2 ^ 24 - 3) % 256 = 8 * ((bits / 2 ^ 24 - 3) % 32) := by omega
  simp only [fromCompactTargetBits_value, Ghostdag.fromCompactTargetBits,
    Ghostdag.fromCompactTargetBitsWith, Ghostdag.shl256]
  rw [if_neg (not_le.mpr hexponent), if_neg (not_le.mpr hexponent),
    if_neg (not_lt.mpr hmant), hshift]

/-- With a large exponent the decoding is exact where the number is in range: the exponent is then
so small that the shift is not reduced. -/
lemma fromCompactTargetBits_exact (hexponent : 3 < bits / 2 ^ 24) (hmant : bits % 2 ^ 24 ≤ 0x7FFFFF)
    (hrange : bits % 2 ^ 24 * 2 ^ (8 * (bits / 2 ^ 24 - 3)) < 2 ^ 256) :
    (fromCompactTargetBits bits).value = bits % 2 ^ 24 * 2 ^ (8 * (bits / 2 ^ 24 - 3)) := by
  rw [fromCompactTargetBits_shift hexponent hmant]
  rcases Nat.eq_zero_or_pos (bits % 2 ^ 24) with hnone | hpos
  · rw [hnone, zero_mul, zero_mul, zero_mod]
  · have hshift : 8 * (bits / 2 ^ 24 - 3) < 256 := by
      refine (Nat.pow_lt_pow_iff_right (by norm_num : 1 < 2)).mp ?_
      exact lt_of_le_of_lt (Nat.le_mul_of_pos_left _ hpos) hrange
    have hmod : (bits / 2 ^ 24 - 3) % 32 = bits / 2 ^ 24 - 3 := by omega
    rw [hmod, mod_eq_of_lt hrange]

/-- Small exponents are decoded by a shift to the right. -/
lemma fromCompactTargetBits_of_le (hexponent : bits / 2 ^ 24 ≤ 3)
    (hmant : bits % 2 ^ 24 / 2 ^ (8 * (3 - bits / 2 ^ 24)) ≤ 0x7FFFFF) :
    (fromCompactTargetBits bits).value = bits % 2 ^ 24 / 2 ^ (8 * (3 - bits / 2 ^ 24)) := by
  simp only [fromCompactTargetBits_value, Ghostdag.fromCompactTargetBits,
    Ghostdag.fromCompactTargetBitsWith, Ghostdag.shl256]
  rw [if_pos hexponent, if_pos hexponent, if_neg (not_lt.mpr hmant), zero_mod, pow_zero,
    mul_one, mod_eq_of_lt (lt_of_le_of_lt hmant (by norm_num))]

/-- Small exponents are always decoded exactly, unless the sign is set. -/
lemma fromCompactTargetBits_small (hexponent : bits / 2 ^ 24 ≤ 3) :
    (fromCompactTargetBits bits).value = 0 ∨
      (fromCompactTargetBits bits).value = exactTarget bits := by
  by_cases hmant : 0x7FFFFF < bits % 2 ^ 24 / 2 ^ (8 * (3 - bits / 2 ^ 24))
  · left
    simp only [fromCompactTargetBits_value, Ghostdag.fromCompactTargetBits,
      Ghostdag.fromCompactTargetBitsWith]
    rw [if_pos hexponent, if_pos hmant]
  · right
    rw [fromCompactTargetBits_of_le hexponent (not_lt.mp hmant), exactTarget]
    by_cases hthree : bits / 2 ^ 24 < 3
    · rw [if_pos hthree, pow_256]
    · have heq : bits / 2 ^ 24 = 3 := by omega
      rw [if_neg hthree, heq, Nat.sub_self, Nat.mul_zero, pow_zero, pow_zero, Nat.div_one, mul_one]

/-- `2^s` times a number is a multiple of the range if and only if the number is one of the rest. -/
lemma pow_dvd_mul_pow {s k : ℕ} (hs : s ≤ k) : 2 ^ k ∣ m * 2 ^ s ↔ 2 ^ (k - s) ∣ m := by
  have hpow : (2 : ℕ) ^ k = 2 ^ (k - s) * 2 ^ s := by rw [← pow_add, Nat.sub_add_cancel hs]
  rw [hpow]
  exact mul_dvd_mul_iff_right (by positivity)

/-- No bits stand for the highest target: a shifted mantissa is even. -/
lemma fromCompactTargetBits_lt (bits : ℕ) : Ghostdag.fromCompactTargetBits bits + 1 < 2 ^ 256 := by
  simp only [Ghostdag.fromCompactTargetBits,
    Ghostdag.fromCompactTargetBitsWith, Ghostdag.shl256]
  generalize (if bits / 2 ^ 24 ≤ 3 then _ else _ : ℕ) = mant
  generalize (if bits / 2 ^ 24 ≤ 3 then _ else _ : ℕ) % 256 = shift
  by_cases hmant : 0x7FFFFF < mant
  · rw [if_pos hmant]
    norm_num
  · rw [if_neg hmant]
    cases shift with
    | zero => omega
    | succ shift =>
      rw [pow_succ, ← mul_assoc]
      omega

/-- The work of a target is exact wherever it fits 192 bits. -/
lemma calcWork_eq (hfits : 2 ^ 256 / (Ghostdag.fromCompactTargetBits bits + 1) < 2 ^ 192) :
    Ghostdag.calcWork bits = some (2 ^ 256 / (Ghostdag.fromCompactTargetBits bits + 1)) := by
  have hlt := fromCompactTargetBits_lt bits
  rw [Ghostdag.calcWork]
  generalize Ghostdag.fromCompactTargetBits bits = target at hfits hlt ⊢
  have hquotient : (2 ^ 256 - 1 - target) / (target + 1) + 1 = 2 ^ 256 / (target + 1) := by
    rw [← add_div_right _ (succ_pos target)]
    congr 1
    omega
  simp only [mod_eq_of_lt hlt]
  rw [if_neg (succ_ne_zero target), hquotient,
    mod_eq_of_lt (hfits.trans (by norm_num)), if_pos hfits]

/-- The decoding is zero or exact if and only if the sign is set, the number is below `2^256`, or
the shifted mantissa has only bits above the range. The work of the decoded target is exact
wherever it fits. -/
theorem compact_decoding (bits : ℕ) : ((fromCompactTargetBits bits).value = 0 ∨
        (fromCompactTargetBits bits).value = exactTarget bits ↔
      0x7FFFFF < bits % 2 ^ 24 ∨ exactTarget bits < 2 ^ 256 ∨
        2 ^ (256 - 8 * ((bits / 2 ^ 24 - 3) % 32)) ∣ bits % 2 ^ 24) ∧
    (2 ^ 256 / ((fromCompactTargetBits bits).value + 1) < 2 ^ 192 →
      Ghostdag.calcWork bits = some (2 ^ 256 / ((fromCompactTargetBits bits).value + 1))) := by
  refine ⟨?_, fun hfits => ?_⟩
  · by_cases hexponent : bits / 2 ^ 24 ≤ 3
    · -- the mantissa alone is below the range
      have hsmall : exactTarget bits < 2 ^ 256 := by
        have hmant : bits % 2 ^ 24 < 2 ^ 24 := mod_lt _ (by norm_num)
        rw [exactTarget]
        split
        · exact lt_of_le_of_lt (div_le_self _ _) (hmant.trans (by norm_num))
        · have heq : bits / 2 ^ 24 - 3 = 0 := by omega
          rw [heq, pow_zero, mul_one]
          exact hmant.trans (by norm_num)
      exact ⟨fun _ => .inr (.inl hsmall), fun _ => fromCompactTargetBits_small hexponent⟩
    · have hthree : 3 < bits / 2 ^ 24 := not_le.mp hexponent
      have hexact : exactTarget bits = bits % 2 ^ 24 * 2 ^ (8 * (bits / 2 ^ 24 - 3)) := by
        rw [exactTarget, if_neg (by omega), pow_256]
      by_cases hmant : 0x7FFFFF < bits % 2 ^ 24
      · refine ⟨fun _ => .inl hmant, fun _ => .inl ?_⟩
        simp only [fromCompactTargetBits_value, Ghostdag.fromCompactTargetBits,
          Ghostdag.fromCompactTargetBitsWith]
        rw [if_neg hexponent, if_pos hmant]
      · have hle : bits % 2 ^ 24 ≤ 0x7FFFFF := not_lt.mp hmant
        have hzero : (fromCompactTargetBits bits).value = 0 ↔
            2 ^ (256 - 8 * ((bits / 2 ^ 24 - 3) % 32)) ∣ bits % 2 ^ 24 := by
          rw [fromCompactTargetBits_shift hthree hle, ← dvd_iff_mod_eq_zero,
            pow_dvd_mul_pow (by omega)]
        have hvalue : (fromCompactTargetBits bits).value = exactTarget bits ↔
            exactTarget bits < 2 ^ 256 := by
          refine ⟨fun h => ?_, fun h => ?_⟩
          · rw [← h]
            exact (fromCompactTargetBits bits).value_lt
          · rw [hexact] at h ⊢
            exact fromCompactTargetBits_exact hthree hle h
        rw [hzero, hvalue]
        exact ⟨fun h => .inr h.symm, fun h => (h.resolve_left hmant).symm⟩
  · rw [fromCompactTargetBits_value] at hfits ⊢
    exact calcWork_eq hfits

/-- An exponent of 36 stands for a target above the range, and the shift by 264 bits is a shift by
8 bits. -/
theorem compact_decoding_wraps :
    exactTarget 0x24000001 = 2 ^ 256 * 0x100 ∧ (fromCompactTargetBits 0x24000001).value = 0x100 := by
  decide

/-! ## Encoding -/

/-- The least number of bytes that leave room for the sign. -/
def exponentOf (target : ℕ) : ℕ := if target = 0 then 0 else target.size / 8 + 1

/-- The three bytes below the exponent. -/
def mantissaOf (target : ℕ) : ℕ := target * 2 ^ 24 / 2 ^ (8 * exponentOf target)

lemma or_mul_pow {x k : ℕ} (hx : x < 2 ^ 24) : x ||| k * 2 ^ 24 = x + k * 2 ^ 24 := by
  rw [Nat.or_comm, ← Nat.shiftLeft_eq, ← Nat.shiftLeft_add_eq_or_of_lt hx, Nat.add_comm]

/-- Shifting the highest bytes into place, to the left or to the right, is one quotient. -/
lemma mul_pow_div_pow (target : ℕ) (size : ℕ) : target * 2 ^ 24 / 2 ^ (8 * size) =
      if size ≤ 3 then target * 2 ^ (8 * (3 - size)) else target / 2 ^ (8 * (size - 3)) := by
  by_cases hsize : size ≤ 3
  · have hpow : (2 : ℕ) ^ 24 = 2 ^ (8 * (3 - size)) * 2 ^ (8 * size) := by
      rw [← pow_add]
      congr 1
      omega
    rw [if_pos hsize, hpow, ← Nat.mul_assoc, Nat.mul_div_cancel _ (by positivity)]
  · have hpow : (2 : ℕ) ^ (8 * size) = 2 ^ (8 * (size - 3)) * 2 ^ 24 := by
      rw [← pow_add]
      congr 1
      omega
    rw [if_neg hsize, hpow, Nat.mul_div_mul_right _ _ (by positivity)]

lemma size_bounds (hpos : 0 < target) :
    0 < target.size ∧ 2 ^ (target.size - 1) ≤ target ∧ target < 2 ^ target.size := by
  have hsize : 0 < target.size := size_pos.mpr hpos
  exact ⟨hsize, lt_size.mp (sub_lt hsize one_pos), lt_size_self target⟩

/-- The three highest bytes. -/
def highBytes : ℕ := t.value * 2 ^ 24 / 2 ^ (8 * ((t.bits + 7) / 8))

/-- The bytes read before the correction for the sign. -/
lemma compact_eq : (if (t.bits + 7) / 8 ≤ 3 then
        t.asU64.toNat * 2 ^ (8 * (3 - (t.bits + 7) / 8)) % 2 ^ 64 % 2 ^ 32
      else (t.shr (8 * ((t.bits + 7) / 8 - 3))).asU64.toNat % 2 ^ 32) = highBytes t ∧
    highBytes t < 2 ^ 24 := by
  have hrange : t.bits ≤ 256 := by
    rw [t.bits_eq]
    exact size_le.mpr t.value_lt
  have hvalue : t.value < 2 ^ (8 * ((t.bits + 7) / 8)) := by
    rw [t.bits_eq]
    exact size_le.mp (by omega)
  have hlt : highBytes t < 2 ^ 24 := by
    rw [highBytes, div_lt_iff_lt_mul (by positivity), mul_comm (2 ^ 24)]
    exact mul_lt_mul_of_pos_right hvalue (by norm_num)
  refine ⟨?_, hlt⟩
  rw [highBytes, mul_pow_div_pow] at hlt ⊢
  split at hlt
  · rename_i hsize
    have hsmall : t.value < 2 ^ 24 :=
      hvalue.trans_le (Nat.pow_le_pow_right (by norm_num) (by omega))
    rw [if_pos hsize, if_pos hsize, t.asU64_toNat,
      mod_eq_of_lt (hsmall.trans (by norm_num) : t.value < 2 ^ 64),
      mod_eq_of_lt (hlt.trans (by norm_num)), mod_eq_of_lt (hlt.trans (by norm_num))]
  · rename_i hsize
    rw [if_neg hsize, if_neg hsize, Uint.asU64_toNat, t.shr_value (by omega),
      mod_eq_of_lt (hlt.trans (by norm_num)), mod_eq_of_lt (hlt.trans (by norm_num))]

lemma compactTargetBits_eq :
    compactTargetBits t = mantissaOf t.value + exponentOf t.value * 2 ^ 24 := by
  obtain ⟨hcompact, hlt⟩ := compact_eq t
  rw [compactTargetBits]
  simp only [hcompact]
  rcases Nat.eq_zero_or_pos t.value with hzero | hpos
  · have hbits : t.bits = 0 := by rw [t.bits_eq, hzero]; rfl
    simp [hzero, hbits, highBytes, mantissaOf, exponentOf]
  · obtain ⟨hsize, hlower, hupper⟩ := size_bounds hpos
    rw [← t.bits_eq] at hsize hlower hupper
    have hexponent : exponentOf t.value = t.bits / 8 + 1 := by
      rw [exponentOf, if_neg hpos.ne', t.bits_eq]
    -- the sign is the highest bit of the highest byte
    have hsign : highBytes t / 2 ^ 23 % 2 = 1 ↔ t.bits = 8 * ((t.bits + 7) / 8) := by
      have hbit : highBytes t / 2 ^ 23 % 2 = 1 ↔ 2 ^ 23 ≤ highBytes t := by omega
      rw [hbit, highBytes, le_div_iff_mul_le (by positivity)]
      refine ⟨fun h => ?_, fun h => ?_⟩
      · by_contra hne
        have hle : 2 ^ t.bits * 2 ≤ 2 ^ (8 * ((t.bits + 7) / 8)) := by
          rw [← pow_succ]
          exact Nat.pow_le_pow_right (by norm_num) (by omega)
        omega
      · have hdouble : 2 ^ (t.bits - 1) * 2 = 2 ^ t.bits := by
          rw [← pow_succ, Nat.sub_add_cancel hsize]
        rw [← h]
        omega
    by_cases hbits : t.bits = 8 * ((t.bits + 7) / 8)
    · have hnext : exponentOf t.value = (t.bits + 7) / 8 + 1 := by omega
      rw [if_pos (hsign.mpr hbits), or_mul_pow (lt_of_le_of_lt (Nat.div_le_self _ _) hlt),
        highBytes, Nat.div_div_eq_div_mul, ← pow_add, mantissaOf, hnext, Nat.mul_add]
    · have hsame : exponentOf t.value = (t.bits + 7) / 8 := by omega
      rw [if_neg (mt hsign.mp hbits), or_mul_pow hlt, highBytes, mantissaOf, hsame]

lemma mantissaOf_lt (target : ℕ) : mantissaOf target < 2 ^ 23 := by
  rw [mantissaOf, Nat.div_lt_iff_lt_mul (by positivity)]
  rcases Nat.eq_zero_or_pos target with rfl | hpos
  · simp
  · obtain ⟨-, -, hupper⟩ := size_bounds hpos
    have hle : 2 ^ target.size * 2 ≤ 2 ^ (8 * exponentOf target) := by
      rw [← pow_succ, exponentOf, if_neg hpos.ne']
      exact Nat.pow_le_pow_right (by norm_num) (by omega)
    omega

/-- The target with the bytes below the mantissa cleared. -/
def clearedTarget (target : ℕ) : ℕ :=
  target / 256 ^ (exponentOf target - 3) * 256 ^ (exponentOf target - 3)

lemma clearedTarget_le (target : ℕ) : clearedTarget target ≤ target := div_mul_le_self _ _

/-- Clearing bytes keeps the highest bit. -/
lemma le_clearedTarget (hpos : 0 < target) : 2 ^ (target.size - 1) ≤ clearedTarget target := by
  obtain ⟨hsize, hlower, -⟩ := size_bounds hpos
  have hdvd : 2 ^ (8 * (exponentOf target - 3)) ∣ 2 ^ (target.size - 1) := by
    rw [exponentOf, if_neg hpos.ne']
    exact pow_dvd_pow 2 (by omega)
  rw [clearedTarget, pow_256]
  calc 2 ^ (target.size - 1)
      = 2 ^ (target.size - 1) / 2 ^ (8 * (exponentOf target - 3)) *
          2 ^ (8 * (exponentOf target - 3)) := (Nat.div_mul_cancel hdvd).symm
    _ ≤ _ := Nat.mul_le_mul_right _ (Nat.div_le_div_right hlower)

lemma exponentOf_clearedTarget (target : ℕ) :
    exponentOf (clearedTarget target) = exponentOf target := by
  rcases Nat.eq_zero_or_pos target with rfl | hpos
  · rfl
  · have hle := le_clearedTarget hpos
    have hpos' : 0 < clearedTarget target := lt_of_lt_of_le (by positivity) hle
    have hsize : (clearedTarget target).size = target.size := by
      refine le_antisymm (size_le_size (clearedTarget_le target)) ?_
      have hlt := lt_size.mpr hle
      omega
    rw [exponentOf, exponentOf, if_neg hpos.ne', if_neg hpos'.ne', hsize]

lemma mantissaOf_clearedTarget (target : ℕ) :
    mantissaOf (clearedTarget target) = mantissaOf target := by
  rw [mantissaOf, mantissaOf, exponentOf_clearedTarget, mul_pow_div_pow, mul_pow_div_pow,
    clearedTarget, pow_256]
  by_cases hexponent : exponentOf target ≤ 3
  · rw [if_pos hexponent, if_pos hexponent, Nat.sub_eq_zero_of_le hexponent, Nat.mul_zero, pow_zero,
      Nat.div_one, Nat.mul_one]
  · rw [if_neg hexponent, if_neg hexponent, Nat.mul_div_cancel _ (by positivity)]

lemma clearedTarget_mono {t u : ℕ} (h : t ≤ u) : clearedTarget t ≤ clearedTarget u := by
  rcases Nat.eq_zero_or_pos t with rfl | ht
  · exact zero_le _
  · have hu : 0 < u := ht.trans_le h
    have hsizes := size_le_size h
    obtain ⟨-, -, hupper⟩ := size_bounds ht
    by_cases hsame : t.size / 8 = u.size / 8
    · have hexponent : exponentOf t = exponentOf u := by
        rw [exponentOf, exponentOf, if_neg ht.ne', if_neg hu.ne', hsame]
      rw [clearedTarget, clearedTarget, hexponent]
      exact Nat.mul_le_mul_right _ (Nat.div_le_div_right h)
    · -- the larger target has a higher bit, which is kept
      calc clearedTarget t ≤ t := clearedTarget_le t
        _ ≤ 2 ^ t.size := hupper.le
        _ ≤ 2 ^ (u.size - 1) := Nat.pow_le_pow_right (by norm_num) (by omega)
        _ ≤ clearedTarget u := le_clearedTarget hu

/-- Bits that are a packed mantissa and exponent. -/
lemma unpack {e : ℕ} (hm : m < 2 ^ 24) :
    (m + e * 2 ^ 24) % 2 ^ 24 = m ∧ (m + e * 2 ^ 24) / 2 ^ 24 = e := by
  rw [add_mul_mod_self_right, mod_eq_of_lt hm, add_mul_div_right _ _ (by norm_num),
    div_eq_of_lt hm, zero_add]
  exact ⟨rfl, rfl⟩

/-- Decoding the encoding clears the bytes below the mantissa. -/
lemma decode_encode :
    (fromCompactTargetBits (compactTargetBits t)).value = clearedTarget t.value := by
  have hmant := mantissaOf_lt t.value
  obtain ⟨hm, he⟩ := unpack (e := exponentOf t.value)
    (show mantissaOf t.value < 2 ^ 24 from hmant.trans (by norm_num))
  rw [← compactTargetBits_eq t] at hm he
  by_cases hexponent : exponentOf t.value ≤ 3
  · have hquotient : mantissaOf t.value / 2 ^ (8 * (3 - exponentOf t.value)) = t.value := by
      have hpow : (2 : ℕ) ^ (8 * exponentOf t.value) * 2 ^ (8 * (3 - exponentOf t.value)) =
          2 ^ 24 := by
        rw [← pow_add]
        congr 1
        omega
      rw [mantissaOf, Nat.div_div_eq_div_mul, hpow, Nat.mul_div_cancel _ (by norm_num)]
    rw [fromCompactTargetBits_of_le (he.le.trans hexponent), hm, he, hquotient, clearedTarget,
      Nat.sub_eq_zero_of_le hexponent, pow_zero, Nat.div_one, Nat.mul_one]
    rw [hm]
    exact (div_le_self _ _).trans (le_pred_of_lt hmant)
  · have hvalue : mantissaOf t.value * 2 ^ (8 * (exponentOf t.value - 3)) =
        clearedTarget t.value := by
      rw [mantissaOf, mul_pow_div_pow, if_neg hexponent, clearedTarget, pow_256]
    rw [fromCompactTargetBits_exact, hm, he, hvalue]
    · rw [he]
      exact not_le.mp hexponent
    · rw [hm]
      exact le_pred_of_lt hmant
    · rw [hm, he, hvalue]
      exact lt_of_le_of_lt (clearedTarget_le _) t.value_lt

/-- Bits of a nonnegative number below `2^256` with the least exponent that leaves room for the
sign and no bit that a small exponent shifts out. -/
def Canonical (bits : ℕ) : Prop :=
  bits = 0 ∨ (2 ^ 15 ≤ bits % 2 ^ 24 ∧ bits % 2 ^ 24 < 2 ^ 23 ∧ 1 ≤ bits / 2 ^ 24 ∧
    256 ^ (3 - bits / 2 ^ 24) ∣ bits % 2 ^ 24 ∧ exactTarget bits < 2 ^ 256)

/-- Mantissa and exponent are determined by the number, where the mantissa uses its bits. -/
lemma mantissa_exponent_unique {v e : ℕ} (hvalue : v * 2 ^ 24 = m * 2 ^ (8 * e))
    (hlower : 2 ^ 15 ≤ m) (hupper : m < 2 ^ 23) (he : 1 ≤ e) :
    mantissaOf v = m ∧ exponentOf v = e := by
  have hpow : 0 < 2 ^ (8 * e) := by positivity
  have hlow := mul_le_mul_right (2 ^ (8 * e)) hlower
  have hhigh := mul_lt_mul_of_pos_right hupper hpow
  have hpos : 0 < v := by
    refine pos_of_ne_zero fun h => ?_
    rw [h] at hvalue
    omega
  have hsize : v.size ≤ 8 * e - 1 := by
    have hdouble : 2 ^ (8 * e - 1) * 2 = 2 ^ (8 * e) := by
      rw [← pow_succ, Nat.sub_add_cancel (by omega)]
    exact size_le.mpr (by omega)
  have hbits : 8 * e ≤ v.size + 8 := by
    obtain ⟨-, -, hlt⟩ := size_bounds hpos
    have hless : 2 ^ (8 * e) < 2 ^ (v.size + 9) := by
      rw [pow_add]
      omega
    have := (Nat.pow_lt_pow_iff_right (by norm_num : 1 < 2)).mp hless
    omega
  have hexponent : exponentOf v = e := by
    rw [exponentOf, if_neg hpos.ne']
    omega
  rw [mantissaOf, hexponent, hvalue, Nat.mul_div_cancel _ hpow]
  exact ⟨rfl, rfl⟩

lemma encode_decode_of_canonical (h : Canonical bits) :
    compactTargetBits (fromCompactTargetBits bits) = bits := by
  rcases h with rfl | ⟨hlower, hupper, he, hdvd, hrange⟩
  · decide
  have hunpack := mod_add_div bits (2 ^ 24)
  have hvalue : (fromCompactTargetBits bits).value * 2 ^ 24 =
      bits % 2 ^ 24 * 2 ^ (8 * (bits / 2 ^ 24)) := by
    have hle : bits % 2 ^ 24 ≤ 0x7FFFFF := le_pred_of_lt hupper
    by_cases hexponent : bits / 2 ^ 24 ≤ 3
    · have hpow : (2 : ℕ) ^ 24 = 2 ^ (8 * (3 - bits / 2 ^ 24)) * 2 ^ (8 * (bits / 2 ^ 24)) := by
        rw [← pow_add]
        congr 1
        omega
      rw [pow_256] at hdvd
      rw [fromCompactTargetBits_of_le hexponent ((div_le_self _ _).trans hle)]
      conv_lhs => rw [hpow, ← Nat.mul_assoc, ← hpow, Nat.div_mul_cancel hdvd]
    · have hthree : 3 < bits / 2 ^ 24 := not_le.mp hexponent
      rw [exactTarget, if_neg (by omega), pow_256] at hrange
      rw [fromCompactTargetBits_exact hthree hle hrange, mul_assoc, ← pow_add]
      congr 2
      omega
  obtain ⟨hm, hexp⟩ := mantissa_exponent_unique hvalue hlower hupper he
  rw [compactTargetBits_eq, hm, hexp]
  omega

/-- A target is encoded with its highest three bytes, or two where the highest bit of the first
byte is set: decoding gives the target with the other bytes cleared, which is encoded the same way.
The decoded encodings are ordered as the targets, and canonical bits are decoded and encoded
without a change. -/
theorem compact_encoding (t : Uint 4) : (let bytes := (t.value.size + 7) / 8
      let cleared := if t.value.size = 8 * bytes then bytes - 2 else bytes - 3
      (fromCompactTargetBits (compactTargetBits t)).value =
        t.value / 256 ^ cleared * 256 ^ cleared) ∧
    (fromCompactTargetBits (compactTargetBits t)).value ≤ t.value ∧
    compactTargetBits (fromCompactTargetBits (compactTargetBits t)) = compactTargetBits t ∧
    (∀ u : Uint 4, t.value ≤ u.value →
      (fromCompactTargetBits (compactTargetBits t)).value ≤
        (fromCompactTargetBits (compactTargetBits u)).value) ∧
    ∀ bits, Canonical bits → compactTargetBits (fromCompactTargetBits bits) = bits := by
  refine ⟨?_, ?_, ?_, fun u h => ?_, fun bits h => encode_decode_of_canonical h⟩
  · have hcleared : exponentOf t.value - 3 =
        if t.value.size = 8 * ((t.value.size + 7) / 8) then (t.value.size + 7) / 8 - 2
        else (t.value.size + 7) / 8 - 3 := by
      rw [exponentOf]
      by_cases hzero : t.value = 0
      · rw [if_pos hzero, hzero]
        rfl
      · rw [if_neg hzero]
        split <;> omega
    rw [decode_encode, clearedTarget, hcleared]
  · rw [decode_encode]
    exact clearedTarget_le t.value
  · rw [compactTargetBits_eq, decode_encode, mantissaOf_clearedTarget, exponentOf_clearedTarget,
      ← compactTargetBits_eq]
  · rw [decode_encode, decode_encode]
    exact clearedTarget_mono h

end LapisMonetae.Math
