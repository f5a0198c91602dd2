import Mathlib.Algebra.BigOperators.Finsupp.Basic
import Mathlib.Data.ZMod.Units

/-!
# Fractions modulo a number

A pair of naturals represents a unit modulo `p` when its quotient is that unit. Pairs are multiplied
by multiplying both sides up to congruence, so the sides may be kept unreduced. The product of
powers of given units depends on the integer multiplicities only.
-/

namespace LapisMonetae.Fractions

/-- `num / den` is the unit `g` modulo `p`. -/
structure Represents (p num den : ℕ) (g : (ZMod p)ˣ) : Prop where
  isUnit_den : IsUnit (den : ZMod p)
  num_eq : (num : ZMod p) = g * den

namespace Represents

variable {p num den num' den' : ℕ} {g g' : (ZMod p)ˣ}

lemma one (p : ℕ) : Represents p 1 1 1 where
  isUnit_den := by simp
  num_eq := by simp

lemma of_coprime {n : ℕ} (h : n.Coprime p) : Represents p n 1 (ZMod.unitOfCoprime n h) where
  isUnit_den := by simp
  num_eq := by simp

section
variable (h : Represents p num den g)
include h

lemma isUnit_num : IsUnit (num : ZMod p) := by
  rw [h.num_eq]
  exact g.isUnit.mul h.isUnit_den

lemma coprime_den : den.Coprime p :=
  (ZMod.isUnit_iff_coprime den p).mp h.isUnit_den

lemma inv : Represents p den num g⁻¹ where
  isUnit_den := h.isUnit_num
  num_eq := by rw [h.num_eq, Units.inv_mul_cancel_left]

lemma mul {n d : ℕ} (h' : Represents p num' den' g')
    (hn : n ≡ num * num' [MOD p]) (hd : d ≡ den * den' [MOD p]) : Represents p n d (g * g') := by
  have hn' : (n : ZMod p) = num * num' := by
    rw [(ZMod.natCast_eq_natCast_iff _ _ _).mpr hn, Nat.cast_mul]
  have hd' : (d : ZMod p) = den * den' := by
    rw [(ZMod.natCast_eq_natCast_iff _ _ _).mpr hd, Nat.cast_mul]
  constructor
  · rw [hd']
    exact h.isUnit_den.mul h'.isUnit_den
  · rw [hn', hd', h.num_eq, h'.num_eq, Units.val_mul]
    ring

/-- Division by an inverse of the denominator. -/
lemma div {q i : ℕ} (hi : den * i ≡ 1 [MOD p]) (hq : q ≡ num * i [MOD p]) : Represents p q 1 g := by
  have hi' : (den : ZMod p) * i = 1 := by
    rw [← Nat.cast_mul, (ZMod.natCast_eq_natCast_iff _ _ _).mpr hi, Nat.cast_one]
  constructor
  · simp
  · rw [(ZMod.natCast_eq_natCast_iff _ _ _).mpr hq, Nat.cast_mul, h.num_eq, mul_assoc, hi',
      Nat.cast_one]

end

/-- A reduced number over one is determined by the unit. -/
lemma num_unique (h : Represents p num 1 g) (h' : Represents p num' 1 g) (hlt : num < p)
    (hlt' : num' < p) : num = num' := by
  have hmod : num ≡ num' [MOD p] := by
    rw [← ZMod.natCast_eq_natCast_iff, h.num_eq, h'.num_eq]
  exact hmod.eq_of_lt_of_lt hlt hlt'

end Represents

section Weight

variable {α G : Type*} [CommGroup G] (f : α → G)

/-- The product of the powers. -/
noncomputable def weight (count : α →₀ ℤ) : G := count.prod fun a n => f a ^ n

@[simp] lemma weight_zero : weight f 0 = 1 := Finsupp.prod_zero_index

@[simp] lemma weight_single (a : α) (n : ℤ) : weight f (Finsupp.single a n) = f a ^ n :=
  Finsupp.prod_single_index (zpow_zero (f a))

lemma weight_add (count count' : α →₀ ℤ) :
    weight f (count + count') = weight f count * weight f count' := by
  classical
  exact Finsupp.prod_add_index' (fun a => zpow_zero (f a)) fun a n n' => zpow_add (f a) n n'

end Weight

end LapisMonetae.Fractions
