import LapisMonetae.MuHash.U3072
import LapisMonetae.Lib.Columns

/-!
# Arithmetic on limbs

Each step on limbs computes with the numbers that the limbs stand for. The accumulator of a column
has three limbs, which is enough for all the products of a column.
-/

namespace LapisMonetae.Muhash

open UInt64 List Option

/-- The number of an accumulator of three limbs. -/
def accValue (acc : UInt64 × UInt64 × UInt64) : ℕ :=
  acc.1.toNat + 2 ^ 64 * acc.2.1.toNat + 2 ^ 128 * acc.2.2.toNat

/-- A product of limbs. -/
lemma mul_toNat_le (a b : UInt64) : a.toNat * b.toNat ≤ (2 ^ 64 - 1) * (2 ^ 64 - 1) := by
  have ha := a.toNat_lt
  have hb := b.toNat_lt
  exact Nat.mul_le_mul (by omega) (by omega)

/-! ## Single steps -/

lemma toNat_overflowingAdd (a b : UInt64) :
    (overflowingAdd a b).1.toNat + 2 ^ 64 * (overflowingAdd a b).2.toUInt64.toNat =
      a.toNat + b.toNat ∧ (overflowingAdd a b).2.toUInt64.toNat ≤ 1 := by
  have ha := a.toNat_lt
  have hb := b.toNat_lt
  have hsum : (overflowingAdd a b).1.toNat = (a.toNat + b.toNat) % 2 ^ 64 := UInt64.toNat_add a b
  by_cases h : 2 ^ 64 ≤ a.toNat + b.toNat
  · have hflag : (overflowingAdd a b).2.toUInt64.toNat = 1 := by
      show (decide (2 ^ 64 ≤ a.toNat + b.toNat)).toUInt64.toNat = 1
      rw [decide_eq_true h]
      rfl
    omega
  · have hflag : (overflowingAdd a b).2.toUInt64.toNat = 0 := by
      show (decide (2 ^ 64 ≤ a.toNat + b.toNat)).toUInt64.toNat = 0
      rw [decide_eq_false h]
      rfl
    omega

lemma toNat_mulWide (a b : UInt64) :
    (mulWide a b).1.toNat + 2 ^ 64 * (mulWide a b).2.toNat = a.toNat * b.toNat := by
  have hle := mul_toNat_le a b
  have hlow : (mulWide a b).1.toNat = a.toNat * b.toNat % 2 ^ 64 := toNat_ofNat'
  have hhigh : (mulWide a b).2.toNat = a.toNat * b.toNat / 2 ^ 64 % 2 ^ 64 := toNat_ofNat'
  omega

/-- `muladd3` adds the product, as long as the sum fits three limbs. None of its additions
overflows then. -/
lemma muladd3_spec (a b : UInt64) (acc : UInt64 × UInt64 × UInt64)
    (h : accValue acc + a.toNat * b.toNat < 2 ^ 192) :
    ∃ acc', muladd3 a b acc = some acc' ∧ accValue acc' = accValue acc + a.toNat * b.toNat := by
  obtain ⟨low, high, carry⟩ := acc
  have hle := mul_toNat_le a b
  have hwide := toNat_mulWide a b
  set tl := (mulWide a b).1
  set th := (mulWide a b).2
  obtain ⟨hlow, hflag⟩ := toNat_overflowingAdd low tl
  set overflow := (overflowingAdd low tl).2.toUInt64
  -- the upper limb of a product is not the greatest limb
  have hth : (th + overflow).toNat = th.toNat + overflow.toNat := by
    rw [UInt64.toNat_add]
    omega
  obtain ⟨hhigh, hflag'⟩ := toNat_overflowingAdd high (th + overflow)
  set overflow' := (overflowingAdd high (th + overflow)).2.toUInt64
  have hcarry : (carry + overflow').toNat = (carry.toNat + overflow'.toNat) % 2 ^ 64 :=
    UInt64.toNat_add _ _
  have hlt := (overflowingAdd low tl).1.toNat_lt
  have hlt' := (overflowingAdd high (th + overflow)).1.toNat_lt
  unfold accValue at h ⊢
  simp only at h
  have hadd : th.toNat + overflow.toNat < 2 ^ 64 := by omega
  have hfits : carry.toNat + overflow'.toNat < 2 ^ 64 := by omega
  refine ⟨((overflowingAdd low tl).1, (overflowingAdd high (th + overflow)).1, carry + overflow'),
    bind_eq_some_iff.mpr ⟨_, if_pos hadd, bind_eq_some_iff.mpr ⟨_, if_pos hfits, rfl⟩⟩, ?_⟩
  show (overflowingAdd low tl).1.toNat + 2 ^ 64 * (overflowingAdd high (th + overflow)).1.toNat +
    2 ^ 128 * (carry + overflow').toNat = low.toNat + 2 ^ 64 * high.toNat + 2 ^ 128 * carry.toNat +
    a.toNat * b.toNat
  omega

/-- `mulnadd3` multiplies an accumulator and adds it. None of its operations overflows. -/
lemma mulnadd3_spec (c0 c1 n : UInt64) (d : UInt64 × UInt64 × UInt64)
    (h : c0.toNat + 2 ^ 64 * c1.toNat + accValue d * n.toNat < 2 ^ 192) :
    ∃ acc, mulnadd3 c0 c1 d.1 d.2.1 d.2.2 n = some acc ∧
      accValue acc = c0.toNat + 2 ^ 64 * c1.toNat + accValue d * n.toNat := by
  obtain ⟨d0, d1, d2⟩ := d
  have h0 := mul_toNat_le d0 n
  have h1 := mul_toNat_le d1 n
  have hc0 := c0.toNat_lt
  have hc1 := c1.toNat_lt
  have hvalue : accValue (d0, d1, d2) * n.toNat =
      d0.toNat * n.toNat + 2 ^ 64 * (d1.toNat * n.toNat) + 2 ^ 128 * (d2.toNat * n.toNat) := by
    unfold accValue
    ring
  rw [hvalue] at h ⊢
  dsimp only
  have hmul : (d2 * n).toNat = d2.toNat * n.toNat % 2 ^ 64 := UInt64.toNat_mul _ _
  set p0 := d0.toNat * n.toNat
  set p1 := d1.toNat * n.toNat
  set p2 := d2.toNat * n.toNat
  set t := p0 + c0.toNat with ht
  set t' := t / 2 ^ 64 + (p1 + c1.toNat) with ht'
  have hr0 : (ofNat t).toNat = t % 2 ^ 64 := toNat_ofNat'
  have hr1 : (ofNat t').toNat = t' % 2 ^ 64 := toNat_ofNat'
  have hr2 : (ofNat (t' / 2 ^ 64)).toNat = t' / 2 ^ 64 % 2 ^ 64 := toNat_ofNat'
  -- the third limb takes what is left of the room of the accumulator
  have hfits : p2 < 2 ^ 64 ∧ t' / 2 ^ 64 + p2 < 2 ^ 64 := by omega
  have hadd : (ofNat (t' / 2 ^ 64)).toNat + (d2 * n).toNat < 2 ^ 64 := by omega
  refine ⟨(ofNat t, ofNat t', ofNat (t' / 2 ^ 64) + d2 * n),
    bind_eq_some_iff.mpr ⟨_, if_pos (by omega), bind_eq_some_iff.mpr ⟨_, if_pos (by omega),
      bind_eq_some_iff.mpr ⟨_, if_pos (by omega), bind_eq_some_iff.mpr ⟨_, if_pos hfits.1,
        bind_eq_some_iff.mpr ⟨_, if_pos hadd, rfl⟩⟩⟩⟩⟩, ?_⟩
  show (ofNat t).toNat + 2 ^ 64 * (ofNat t').toNat +
    2 ^ 128 * (ofNat (t' / 2 ^ 64) + d2 * n).toNat = _
  rw [hr0, hr1, UInt64.toNat_add]
  omega

/-- `muln2` multiplies, as long as the product fits two limbs. -/
lemma muln2_spec (low high n : UInt64)
    (h : (low.toNat + 2 ^ 64 * high.toNat) * n.toNat < 2 ^ 128) :
    ∃ r, muln2 low high n = some r ∧
      r.1.toNat + 2 ^ 64 * r.2.toNat = (low.toNat + 2 ^ 64 * high.toNat) * n.toNat := by
  have hvalue : (low.toNat + 2 ^ 64 * high.toNat) * n.toNat =
      low.toNat * n.toNat + 2 ^ 64 * (high.toNat * n.toNat) := by ring
  rw [hvalue] at h ⊢
  have ht : low.toNat * n.toNat / 2 ^ 64 + high.toNat * n.toNat < 2 ^ 128 := by omega
  refine ⟨_, bind_eq_some_iff.mpr ⟨_, if_pos ht, rfl⟩, ?_⟩
  have hlow : (ofNat (low.toNat * n.toNat)).toNat = low.toNat * n.toNat % 2 ^ 64 := toNat_ofNat'
  have hhigh : (ofNat (low.toNat * n.toNat / 2 ^ 64 + high.toNat * n.toNat)).toNat =
      (low.toNat * n.toNat / 2 ^ 64 + high.toNat * n.toNat) % 2 ^ 64 := toNat_ofNat'
  dsimp only
  omega

/-! ## The addition loop -/

/-- The number of a list of limbs. -/
def limbsValue (limbs : List UInt64) : ℕ := Nat.ofDigits (2 ^ 64) (limbs.map toNat)

lemma limbsValue_cons (limb : UInt64) (limbs : List UInt64) :
    limbsValue (limb :: limbs) = limb.toNat + 2 ^ 64 * limbsValue limbs := Nat.ofDigits_cons

lemma limbsValue_append (l l' : List UInt64) :
    limbsValue (l ++ l') = limbsValue l + (2 ^ 64) ^ l.length * limbsValue l' := by
  unfold limbsValue
  rw [map_append, Nat.ofDigits_append, length_map]

lemma limbsValue_lt (limbs : List UInt64) : limbsValue limbs < (2 ^ 64) ^ limbs.length := by
  have h := Nat.ofDigits_lt_base_pow_length (b := 2 ^ 64) (l := limbs.map toNat) (by norm_num)
    (by
      intro x hx
      obtain ⟨limb, -, rfl⟩ := mem_map.mp hx
      exact limb.toNat_lt)
  rwa [length_map] at h

/-- The largest value is that of the limbs that are all the largest. -/
lemma limbsValue_eq_max_iff (limbs : List UInt64) : limbsValue limbs + 1 = (2 ^ 64) ^ limbs.length ↔
      ∀ limb ∈ limbs, limb = ofNat (2 ^ 64 - 1) := by
  induction limbs with
  | nil => exact ⟨fun _ limb hmem => absurd hmem not_mem_nil, fun _ => rfl⟩
  | cons limb limbs ih =>
    have hmax : (ofNat (2 ^ 64 - 1)).toNat = 2 ^ 64 - 1 := rfl
    have hlimb : limb.toNat = 2 ^ 64 - 1 ↔ limb = ofNat (2 ^ 64 - 1) := by
      rw [← UInt64.toNat_inj, hmax]
    have hlt := limb.toNat_lt
    have htail := limbsValue_lt limbs
    rw [forall_mem_cons, ← ih, ← hlimb, limbsValue_cons, length_cons, pow_succ']
    omega

lemma limbsValue_inj {l l' : List UInt64} (hlen : l.length = l'.length)
    (h : limbsValue l = limbsValue l') : l = l' := by
  have hlt : ∀ l : List UInt64, ∀ x ∈ l.map toNat, x < 2 ^ 64 := by
    intro l x hx
    obtain ⟨limb, -, rfl⟩ := mem_map.mp hx
    exact limb.toNat_lt
  have hmap := Nat.ofDigits_inj_of_len_eq (by norm_num) (by simpa using hlen) (hlt l) (hlt l') h
  exact map_injective_iff.mpr (fun a b => UInt64.toNat_inj.mp) hmap

/-- The loop adds a number of two limbs; nothing is lost. -/
lemma limbsValue_addLimbs (limbs : List UInt64) : ∀ low high : UInt64,
    limbsValue (addLimbs limbs (low, high)).1 + (2 ^ 64) ^ limbs.length *
        ((addLimbs limbs (low, high)).2.1.toNat + 2 ^ 64 * (addLimbs limbs (low, high)).2.2.toNat) =
      limbsValue limbs + (low.toNat + 2 ^ 64 * high.toNat) := by
  induction limbs with
  | nil =>
    intro low high
    simp [addLimbs, limbsValue]
  | cons limb limbs ih =>
    intro low high
    obtain ⟨hlow, -⟩ := toNat_overflowingAdd low limb
    set overflow := (overflowingAdd low limb).2.toUInt64
    obtain ⟨hhigh, -⟩ := toNat_overflowingAdd high overflow
    set overflow' := (overflowingAdd high overflow).2.toUInt64
    have hrest := ih (overflowingAdd high overflow).1 overflow'
    show limbsValue ((overflowingAdd low limb).1 ::
        (addLimbs limbs ((overflowingAdd high overflow).1, overflow')).1) +
      (2 ^ 64) ^ (limbs.length + 1) *
        ((addLimbs limbs ((overflowingAdd high overflow).1, overflow')).2.1.toNat +
          2 ^ 64 * (addLimbs limbs ((overflowingAdd high overflow).1, overflow')).2.2.toNat) = _
    rw [limbsValue_cons, limbsValue_cons]
    set rest := addLimbs limbs ((overflowingAdd high overflow).1, overflow')
    have hscaled : (2 ^ 64) ^ (limbs.length + 1) * (rest.2.1.toNat + 2 ^ 64 * rest.2.2.toNat) =
        2 ^ 64 * ((2 ^ 64) ^ limbs.length * (rest.2.1.toNat + 2 ^ 64 * rest.2.2.toNat)) := by ring
    rw [hscaled]
    omega

end LapisMonetae.Muhash
