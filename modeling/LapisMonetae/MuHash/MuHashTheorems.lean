import LapisMonetae.Lib.Fractions
import LapisMonetae.MuHash.MuHash
import LapisMonetae.MuHash.U3072Theorems

/-!
# The hash of a set depends on the multiplicities only

An accumulator represents a unit modulo the prime, its numerator over its denominator. Each call
multiplies that unit, and so the unit is the product of the powers of the elements. A serialized
accumulator is reduced, and so it is determined by the unit.
-/

namespace LapisMonetae.Muhash

open Fractions Nat U3072 MuHash Finsupp Function Option

variable {Hash : Type} {prim : Primitives Hash} {data : List UInt8}

/-- Modular inversion is correct: a number that has an inverse gets one. -/
def InvertsUnits (prim : Primitives Hash) : Prop :=
  ∀ a : U3072, 0 < a.toNat → a.toNat < uintPrime → a.toNat.Coprime uintPrime →
    ∃ inv, prim.modInverse a = some inv ∧ a.toNat * inv.toNat ≡ 1 [MOD uintPrime]

/-! ## Division -/

namespace U3072

lemma one_lt_uintPrime : 1 < uintPrime := by
  have hprime := uintPrime_add
  have hbig : 2 ^ 64 ≤ 2 ^ 3072 := Nat.pow_le_pow_right (by norm_num) (by norm_num)
  omega

lemma toNat_reduced (x : U3072) : x.reduced.toNat = x.toNat % uintPrime := by
  have h := lastReductions (c := x) (Or.inl rfl : (0 : UInt64) = 0 ∨ _)
  rwa [UInt64.toNat_zero, mul_zero, add_zero, if_neg (not_not_intro rfl)] at h

lemma toNat_fullReduce_modEq {x : U3072} (h : x.isOverflow) :
    x.fullReduce.toNat ≡ x.toNat [MOD uintPrime] := by
  have hreduced := toNat_reduced x
  unfold reduced at hreduced
  rw [if_pos h] at hreduced
  rw [hreduced]
  exact mod_modEq _ _

/-- The debug assertion of `inverse` holds. -/
lemma mul_eq_one {a inv : U3072} (ha : a.toNat < uintPrime)
    (h : a.toNat * inv.toNat ≡ 1 [MOD uintPrime]) : inv.mul a = some one := by
  obtain ⟨c, heval, hone, hother⟩ := mul_spec inv a
  have hmod : c.toNat ≡ 1 [MOD uintPrime] := by
    apply (toNat_mul_modEq inv a heval).trans
    rwa [mul_comm]
  have hlt : c.toNat < uintPrime := by
    by_cases hinv : inv = one
    · rwa [hone hinv]
    · rw [hother hinv]
      exact mod_lt _ (zero_lt_one.trans one_lt_uintPrime)
  have hvalue : c.toNat = one.toNat := by
    rw [toNat_one]
    exact hmod.eq_of_lt_of_lt hlt one_lt_uintPrime
  rw [heval, toNat_inj hvalue]

lemma inverse_spec (hinverts : InvertsUnits prim) {x : U3072} (hx : x.toNat.Coprime uintPrime) :
    ∃ inv, inverse prim x = some inv ∧ x.toNat * inv.toNat ≡ 1 [MOD uintPrime] := by
  have hvalue := toNat_reduced x
  have hlt : x.reduced.toNat < uintPrime := by
    rw [hvalue]
    exact mod_lt _ (zero_lt_one.trans one_lt_uintPrime)
  have hcoprime : x.reduced.toNat.Coprime uintPrime := by
    rw [hvalue]
    exact (Nat.ModEq.gcd_eq (mod_modEq _ _)).trans hx
  have hpos : 0 < x.reduced.toNat := by
    rw [pos_iff_ne_zero]
    intro hzero
    rw [hzero, coprime_zero_left] at hcoprime
    exact absurd hcoprime one_lt_uintPrime.ne'
  have hne : x.reduced ≠ zero := by
    intro hzero
    rw [hzero, toNat_zero] at hpos
    exact lt_irrefl 0 hpos
  obtain ⟨inv, heval, hinv⟩ := hinverts x.reduced hpos hlt hcoprime
  refine ⟨inv, ?_, ?_⟩
  · unfold inverse
    simp only [if_neg hne, heval, bind_eq_bind, bind_some, mul_eq_one hlt hinv, if_true, ite_self]
  · rw [hvalue] at hinv
    exact ((mod_modEq _ _).mul_right _).symm.trans hinv

/-- A division by a unit never panics; it multiplies by an inverse and reduces. -/
lemma div_spec (hinverts : InvertsUnits prim) (x : U3072) {y : U3072}
    (hy : y.toNat.Coprime uintPrime) :
    ∃ q inv : U3072, div prim x y = some q ∧ q.toNat < uintPrime ∧
      y.toNat * inv.toNat ≡ 1 [MOD uintPrime] ∧ q.toNat ≡ x.toNat * inv.toNat [MOD uintPrime] := by
  have hinverse : ∃ inv, (if y.isOverflow then inverse prim y.fullReduce else inverse prim y) =
      some inv ∧ y.toNat * inv.toNat ≡ 1 [MOD uintPrime] := by
    by_cases hover : y.isOverflow
    · have hmod := toNat_fullReduce_modEq hover
      obtain ⟨inv, heval, hinv⟩ := inverse_spec hinverts (x := y.fullReduce) (hmod.gcd_eq.trans hy)
      exact ⟨inv, (if_pos hover).trans heval, (hmod.mul_right _).symm.trans hinv⟩
    · obtain ⟨inv, heval, hinv⟩ := inverse_spec hinverts hy
      exact ⟨inv, (if_neg hover).trans heval, hinv⟩
  obtain ⟨inv, heval, hinv⟩ := hinverse
  obtain ⟨c, hmul, -, -⟩ := mul_spec x.reduced inv
  refine ⟨c.reduced, inv, ?_, ?_, hinv, ?_⟩
  · unfold div
    rw [heval]
    show x.reduced.mul inv >>= _ = _
    rw [hmul]
    rfl
  · rw [toNat_reduced]
    exact mod_lt _ (zero_lt_one.trans one_lt_uintPrime)
  · rw [toNat_reduced]
    apply (mod_modEq _ _).trans
    apply (toNat_mul_modEq _ _ hmul).trans
    rw [toNat_reduced]
    exact (mod_modEq _ _).mul_right _

end U3072

/-! ## One call -/

/-- The unit of an element. -/
noncomputable def unitOf (prim : Primitives Hash) (data : List UInt8) : (ZMod uintPrime)ˣ :=
  if h : (dataToElement prim data).toNat.Coprime uintPrime then ZMod.unitOfCoprime _ h else 1

lemma represents_element (h : (dataToElement prim data).toNat.Coprime uintPrime) :
    Represents uintPrime (dataToElement prim data).toNat 1 (unitOf prim data) := by
  unfold unitOf
  rw [dif_pos h]
  exact Represents.of_coprime h

namespace MuHash

/-- The accumulator represents the product of the elements to their multiplicities. -/
def Holds (prim : Primitives Hash) (self : MuHash) (count : List UInt8 → ℤ) : Prop :=
  ∃ c : List UInt8 →₀ ℤ, ⇑c = count ∧
    Represents uintPrime self.numerator.toNat self.denominator.toNat (weight (unitOf prim) c)

variable {self other : MuHash} {count count' : List UInt8 → ℤ} {next : MuHash}

lemma holds_new : Holds prim new 0 := by
  refine ⟨0, coe_zero, ?_⟩
  rw [weight_zero]
  exact Represents.one uintPrime

lemma addElement_holds (h : self.Holds prim count)
    (hdata : (dataToElement prim data).toNat.Coprime uintPrime) :
    ∃ next, self.addElement prim data = some next ∧ next.Holds prim (count + Pi.single data 1) := by
  obtain ⟨c, rfl, hrep⟩ := h
  obtain ⟨numerator, hmul, -, -⟩ := mul_spec self.numerator (dataToElement prim data)
  refine ⟨{ self with numerator }, ?_, c + single data 1, ?_, ?_⟩
  · unfold addElement
    rw [hmul]
    rfl
  · rw [coe_add, single_eq_pi_single]
  · rw [weight_add, Fractions.weight_single, zpow_one]
    apply hrep.mul (represents_element hdata) (toNat_mul_modEq _ _ hmul)
    rw [mul_one]

lemma removeElement_holds (h : self.Holds prim count)
    (hdata : (dataToElement prim data).toNat.Coprime uintPrime) :
    ∃ next, self.removeElement prim data = some next ∧
      next.Holds prim (count - Pi.single data 1) := by
  obtain ⟨c, rfl, hrep⟩ := h
  obtain ⟨denominator, hmul, -, -⟩ := mul_spec self.denominator (dataToElement prim data)
  refine ⟨{ self with denominator }, ?_, c + single data (-1), ?_, ?_⟩
  · unfold removeElement
    rw [hmul]
    rfl
  · rw [coe_add, single_eq_pi_single, Pi.single_neg, sub_eq_add_neg]
  · rw [weight_add, Fractions.weight_single, zpow_neg_one]
    refine hrep.mul (represents_element hdata).inv ?_ (toNat_mul_modEq _ _ hmul)
    rw [mul_one]

lemma combine_holds (h : self.Holds prim count) (h' : other.Holds prim count') :
    ∃ next, self.combine other = some next ∧ next.Holds prim (count + count') := by
  obtain ⟨c, rfl, hrep⟩ := h
  obtain ⟨c', rfl, hrep'⟩ := h'
  obtain ⟨numerator, hnum, -, -⟩ := mul_spec self.numerator other.numerator
  obtain ⟨denominator, hden, -, -⟩ := mul_spec self.denominator other.denominator
  refine ⟨{ numerator, denominator }, ?_, c + c', coe_add c c', ?_⟩
  · unfold combine
    rw [hnum, hden]
    rfl
  · rw [weight_add]
    exact hrep.mul hrep' (toNat_mul_modEq _ _ hnum) (toNat_mul_modEq _ _ hden)

/-- A normalized accumulator: a reduced numerator over one. -/
def Normalized (self : MuHash) : Prop :=
  self.numerator.toNat < uintPrime ∧ self.denominator = one

lemma normalize_holds (hinverts : InvertsUnits prim) (h : self.Holds prim count) :
    ∃ next, self.normalize prim = some next ∧ next.Holds prim count ∧ next.Normalized := by
  obtain ⟨c, rfl, hrep⟩ := h
  obtain ⟨numerator, inv, hdiv, hlt, hinv, hmod⟩ :=
    div_spec hinverts self.numerator hrep.coprime_den
  refine ⟨{ numerator, denominator := one }, ?_, ⟨c, rfl, ?_⟩, hlt, rfl⟩
  · unfold normalize
    rw [hdiv]
    rfl
  · show Represents uintPrime numerator.toNat one.toNat _
    rw [toNat_one]
    exact hrep.div hinv hmod

/-- The multiplicities determine a normalized accumulator. -/
lemma Normalized.eq (hself : self.Normalized) (hother : other.Normalized)
    (h : self.Holds prim count) (h' : other.Holds prim count) : self = other := by
  obtain ⟨c, hc, hrep⟩ := h
  obtain ⟨c', hc', hrep'⟩ := h'
  obtain rfl : c = c' := DFunLike.coe_injective (hc.trans hc'.symm)
  obtain ⟨numerator, denominator⟩ := self
  obtain ⟨numerator', denominator'⟩ := other
  obtain ⟨hlt, rfl⟩ := hself
  obtain ⟨hlt', rfl⟩ := hother
  dsimp only at hlt hlt' hrep hrep'
  rw [toNat_one] at hrep hrep'
  rw [toNat_inj (hrep.num_unique hrep' hlt hlt')]

lemma serialize_eq (h : self.normalize prim = some next) :
    self.serialize prim = some (next.numerator.toLeBytes, next) := by
  unfold serialize
  rw [h]
  rfl

lemma finalize_eq (h : self.normalize prim = some next) :
    self.finalize prim = some (prim.finalizeHash next.numerator.toLeBytes, next) := by
  unfold finalize
  rw [serialize_eq h]
  rfl

/-- A serialized accumulator is accepted and read back as it was left. -/
lemma Normalized.deserialize_eq (h : self.Normalized) :
    deserialize self.numerator.toLeBytes = .ok self := by
  obtain ⟨numerator, denominator⟩ := self
  obtain ⟨hlt, rfl⟩ := h
  have hover : ¬numerator.isOverflow := by
    rw [isOverflow_iff]
    exact not_le.mpr hlt
  unfold deserialize
  rw [fromLeBytes_of_toLeBytes]
  exact if_neg hover

end MuHash

/-! ## Runs -/

section Runs

variable {ι κ : Type} [DecidableEq ι] [DecidableEq κ] {count : ι → List UInt8 → ℤ}
  {store : ι → MuHash}

/-- Each accumulator holds the elements with their multiplicities. -/
def Accounts (prim : Primitives Hash) (store : ι → MuHash) (count : ι → List UInt8 → ℤ) : Prop :=
  ∀ i, (store i).Holds prim (count i)

lemma Accounts.update (h : Accounts prim store count) (i : ι) {self : MuHash} {own : List UInt8 → ℤ}
    (hself : self.Holds prim own) : Accounts prim (update store i self) (update count i own) := by
  intro j
  by_cases hj : j = i
  · subst hj
    rwa [Function.update_self, Function.update_self]
  · rw [update_of_ne hj, update_of_ne hj]
    exact h j

/-- The elements of the call are invertible. -/
def Op.Invertible (prim : Primitives Hash) (op : Op ι) : Prop :=
  ∀ data ∈ op.elements, (dataToElement prim data).toNat.Coprime uintPrime

lemma Op.exec_accounts (hinverts : InvertsUnits prim) (h : Accounts prim store count) {op : Op ι}
    (hop : op.Invertible prim) :
    ∃ next, op.exec prim store = some next ∧ Accounts prim next (op.account count) := by
  cases op with
  | new i => exact ⟨_, rfl, h.update i holds_new⟩
  | addElement i data =>
    obtain ⟨self, heval, hself⟩ := addElement_holds (h i) (hop data (List.mem_singleton_self _))
    refine ⟨_, ?_, h.update i hself⟩
    simp only [exec, heval, bind_eq_bind, bind_some, pure_def]
  | removeElement i data =>
    obtain ⟨self, heval, hself⟩ :=
      removeElement_holds (h i) (hop data (List.mem_singleton_self _))
    refine ⟨_, ?_, h.update i hself⟩
    simp only [exec, heval, bind_eq_bind, bind_some, pure_def]
  | combine i other =>
    obtain ⟨self, heval, hself⟩ := combine_holds (h i) (h other)
    refine ⟨_, ?_, h.update i hself⟩
    simp only [exec, heval, bind_eq_bind, bind_some, pure_def]
  | finalize i =>
    obtain ⟨self, heval, hself, -⟩ := normalize_holds hinverts (h i)
    refine ⟨update store i self, ?_, ?_⟩
    · simp only [exec, finalize_eq heval, bind_eq_bind, bind_some, pure_def]
    · have hupdate := h.update i hself
      rwa [update_eq_self] at hupdate

lemma foldlM_exec_accounts (hinverts : InvertsUnits prim) (ops : List (Op ι))
    (hops : ∀ op ∈ ops, op.Invertible prim) : ∀ {store : ι → MuHash} {count : ι → List UInt8 → ℤ},
    Accounts prim store count → ∃ next, ops.foldlM (Op.exec prim) store = some next ∧
      Accounts prim next (ops.foldl Op.account count) := by
  induction ops with
  | nil => exact fun h => ⟨_, rfl, h⟩
  | cons op ops ih =>
    intro store count h
    obtain ⟨mid, hexec, hmid⟩ := op.exec_accounts hinverts h (hops op List.mem_cons_self)
    obtain ⟨next, hrun, hnext⟩ := ih (fun op hop => hops op (List.mem_cons_of_mem _ hop)) hmid
    refine ⟨next, ?_, hnext⟩
    rw [List.foldlM_cons, hexec]
    exact hrun

/-- A run never panics, and its accumulators hold the elements with their multiplicities. -/
lemma run_accounts (hinverts : InvertsUnits prim) {ops : List (Op ι)}
    (hops : ∀ op ∈ ops, op.Invertible prim) :
    ∃ store, run prim ops = some store ∧ Accounts prim store (multiplicity ops) :=
  foldlM_exec_accounts hinverts ops hops fun _ => holds_new

/-- Accumulators of two runs in which each element has the same multiplicity are serialized to the
same bytes and finalized to the same hash. The bytes are a number below the prime, and they are
deserialized to an accumulator with that hash. -/
theorem serialize_finalize_of_multiplicity (hinverts : InvertsUnits prim) {ops : List (Op ι)}
    {ops' : List (Op κ)} (hops : ∀ op ∈ ops, op.Invertible prim)
    (hops' : ∀ op ∈ ops', op.Invertible prim) {i : ι} {j : κ}
    (hcount : multiplicity ops i = multiplicity ops' j) : ∃ store store' bytes normalized,
      run prim ops = some store ∧ run prim ops' = some store' ∧
      (store i).serialize prim = some (bytes, normalized) ∧
      (store' j).serialize prim = some (bytes, normalized) ∧
      (store i).finalize prim = some (prim.finalizeHash bytes, normalized) ∧
      (store' j).finalize prim = some (prim.finalizeHash bytes, normalized) ∧
      LittleEndian.fromLeBytes bytes.1 < uintPrime ∧
      ∃ read, deserialize bytes = .ok read ∧
        read.finalize prim = some (prim.finalizeHash bytes, normalized) := by
  obtain ⟨store, hrun, haccounts⟩ := run_accounts hinverts hops
  obtain ⟨store', hrun', haccounts'⟩ := run_accounts hinverts hops'
  have hi := haccounts i
  have hj := haccounts' j
  rw [← hcount] at hj
  obtain ⟨normalized, heval, hholds, hnormal⟩ := normalize_holds hinverts hi
  obtain ⟨normalized', heval', hholds', hnormal'⟩ := normalize_holds hinverts hj
  obtain rfl : normalized = normalized' := hnormal.eq hnormal' hholds hholds'
  -- a normalized accumulator is normalized to itself
  obtain ⟨again, hagain, hholdsAgain, hnormalAgain⟩ := normalize_holds hinverts hholds
  obtain rfl : normalized = again := hnormal.eq hnormalAgain hholds hholdsAgain
  refine ⟨store, store', normalized.numerator.toLeBytes, normalized, hrun, hrun',
    serialize_eq heval, serialize_eq heval', finalize_eq heval,
    finalize_eq heval', ?_, normalized, hnormal.deserialize_eq, finalize_eq hagain⟩
  rw [fromLeBytes_toLeBytes]
  exact hnormal.1

/-! ### Two runs -/

/-- The lowest limbs of a number. -/
def limbsOf : ℕ → ℕ → List UInt64
  | 0, _ => []
  | k + 1, n => UInt64.ofNat n :: limbsOf k (n / 2 ^ 64)

lemma length_limbsOf (k n : ℕ) : (limbsOf k n).length = k := by
  induction k generalizing n with
  | zero => rfl
  | succ k ih => exact congrArg (· + 1) (ih _)

lemma limbsValue_limbsOf {k n : ℕ} (h : n < (2 ^ 64) ^ k) : limbsValue (limbsOf k n) = n := by
  induction k generalizing n with
  | zero =>
    rw [pow_zero, lt_one_iff] at h
    exact h.symm
  | succ k ih =>
    have hdiv : n / 2 ^ 64 < (2 ^ 64) ^ k := by
      rw [pow_succ] at h
      exact Nat.div_lt_of_lt_mul (by rwa [mul_comm])
    have hlimb : (UInt64.ofNat n).toNat = n % 2 ^ 64 := UInt64.toNat_ofNat'
    rw [limbsOf, limbsValue_cons, ih hdiv, hlimb, mod_add_div]

/-- The number modulo `2^3072`. -/
def ofNat (n : ℕ) : U3072 := ⟨limbsOf limbCount n, length_limbsOf _ _⟩

lemma toNat_ofNat {n : ℕ} (h : n < 2 ^ 3072) : (ofNat n).toNat = n := by
  rw [← limbBase_pow] at h
  exact limbsValue_limbsOf h

/-- The exponent of the element for some data. -/
def exponentOf (data : List UInt8) : ℕ := 1 + LittleEndian.fromLeBytes data % 3071

/-- The elements are powers of two, and the inverse is by the extended Euclidean algorithm. -/
def powers : Primitives U3072.ElementBytes where
  elementBytes data := (ofNat (2 ^ exponentOf data)).toLeBytes
  modInverse a := some (ofNat (Nat.gcdA a.toNat uintPrime % uintPrime).toNat)
  finalizeHash bytes := bytes
  debugAssertions := true

lemma powers_invertsUnits : InvertsUnits powers := by
  intro a _ _ hcoprime
  refine ⟨_, rfl, ?_⟩
  have hpos : (0 : ℤ) < uintPrime := by exact_mod_cast zero_lt_one.trans one_lt_uintPrime
  have hnonneg := Int.emod_nonneg (Nat.gcdA a.toNat uintPrime) hpos.ne'
  have hlt := Int.emod_lt_of_pos (Nat.gcdA a.toNat uintPrime) hpos
  have hprime := uintPrime_add
  have hvalue : (ofNat (Nat.gcdA a.toNat uintPrime % uintPrime).toNat).toNat =
      (Nat.gcdA a.toNat uintPrime % uintPrime).toNat := toNat_ofNat (by omega)
  rw [hvalue, ← Int.natCast_modEq_iff, cast_mul, Int.toNat_of_nonneg hnonneg]
  have hbezout := gcd_eq_gcd_ab a.toNat uintPrime
  rw [hcoprime] at hbezout
  have hleft : (a.toNat : ℤ) * (Nat.gcdA a.toNat uintPrime % uintPrime) ≡
      a.toNat * Nat.gcdA a.toNat uintPrime [ZMOD uintPrime] := (Int.mod_modEq _ _).mul_left _
  apply hleft.trans
  rw [hbezout]
  exact (Int.modEq_iff_dvd).mpr ⟨Nat.gcdB a.toNat uintPrime, by ring⟩

lemma odd_uintPrime : Odd uintPrime := by
  have hprime := uintPrime_add
  obtain ⟨half, hhalf⟩ : 2 ∣ 2 ^ 3072 := dvd_pow_self 2 (by norm_num)
  rw [hhalf] at hprime
  rw [← not_even_iff_odd]
  rintro ⟨n, hn⟩
  rw [hn] at hprime
  omega

omit [DecidableEq ι] in
lemma powers_invertible (op : Op ι) : op.Invertible powers := by
  intro data _
  have hlt : exponentOf data < 3072 := by
    have hmod := Nat.mod_lt (LittleEndian.fromLeBytes data) (show 0 < 3071 by norm_num)
    rw [exponentOf]
    omega
  have hvalue : (dataToElement powers data).toNat = 2 ^ exponentOf data := by
    show (fromLeBytes (ofNat (2 ^ exponentOf data)).toLeBytes).toNat = 2 ^ exponentOf data
    rw [fromLeBytes_of_toLeBytes, toNat_ofNat (Nat.pow_lt_pow_right (by norm_num) hlt)]
  rw [hvalue]
  exact Nat.Coprime.pow_left _ (coprime_two_left.mpr odd_uintPrime)

/-- An element is added in a second accumulator that is combined into the first, and another one is
removed before it is added. -/
def split : List (Op Bool) :=
  [.removeElement true [1], .addElement false [0], .combine true false, .finalize true,
    .addElement true [1]]

theorem serialize_finalize_of_split : ∃ store store' bytes normalized,
      run powers split = some store ∧ run powers [.addElement () [0]] = some store' ∧
      (store true).serialize powers = some (bytes, normalized) ∧
      (store' ()).serialize powers = some (bytes, normalized) ∧
      (store true).finalize powers = some (powers.finalizeHash bytes, normalized) ∧
      (store' ()).finalize powers = some (powers.finalizeHash bytes, normalized) ∧
      LittleEndian.fromLeBytes bytes.1 < uintPrime ∧
      ∃ read, deserialize bytes = .ok read ∧
        read.finalize powers = some (powers.finalizeHash bytes, normalized) := by
  apply serialize_finalize_of_multiplicity powers_invertsUnits (fun op _ => powers_invertible op)
    fun op _ => powers_invertible op
  funext data
  simp [multiplicity, split, Op.account]

end Runs

end LapisMonetae.Muhash
