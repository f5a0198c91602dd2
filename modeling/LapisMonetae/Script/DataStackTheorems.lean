import LapisMonetae.Script.DataStack
import Mathlib.Algebra.Order.Group.Unbundled.Int
import Mathlib.Algebra.Order.Ring.Int
import Mathlib.Data.List.Induction
import Mathlib.Data.Nat.Bitwise
import Mathlib.Tactic.NormNum

/-!
# The data stack does not panic

Every operation of the data stack returns or fails. The numbers read from at most eight bytes fit
`i64`, those read from at most four bytes fit `i32`, and a negative number has a byte to carry its
sign. A number has one encoding, which is read back as the number.
-/

namespace LapisMonetae.Script

open Program LittleEndian List Nat

variable {σ : Type} {low : List UInt8} {top : UInt8} {msb : UInt8} (size : ℕ) (v : List UInt8)
  (stack : Stack)

/-! ## Numbers -/

/-- The last of the bytes has its high bit set; `saturated` stands for the byte before them. -/
def lastSaturated (saturated : Bool) (low : List UInt8) : Bool :=
  low.foldl (fun _ b => decide (128 ≤ b.toNat)) saturated

/-- The number of the lower bytes and of the byte with the sign. -/
def signedValue (low : List UInt8) (msb : UInt8) : ℤ :=
  fromLeBytes (low ++ [msb &&& 0x7f]) * (1 - 2 * (msb >>> 7).toNat)

/-- The byte with the sign has a bit of the number, or it is there for the high bit below it. -/
def MinimalEncoding (low : List UInt8) (msb : UInt8) : Prop :=
  msb &&& 0x7f ≠ 0 ∨ lastSaturated false low

/-- The mask clears the sign. -/
lemma toNat_and_low (msb : UInt8) : (msb &&& 0x7f).toNat = msb.toNat % 128 := by
  rw [UInt8.toNat_and]
  exact and_two_pow_sub_one_eq_mod msb.toNat 7

lemma toNat_shiftRight_sign (msb : UInt8) : (msb >>> 7).toNat = msb.toNat / 128 := by
  rw [UInt8.toNat_shiftRight]
  exact shiftRight_eq_div_pow _ 7

/-- The sign is not part of the magnitude. -/
lemma natAbs_signedValue (low : List UInt8) (msb : UInt8) :
    (signedValue low msb).natAbs = fromLeBytes (low ++ [msb &&& 0x7f]) := by
  have hmsb := msb.toNat_lt
  have hsign : msb.toNat / 128 = 0 ∨ msb.toNat / 128 = 1 := by omega
  rw [signedValue, toNat_shiftRight_sign]
  rcases hsign with h | h <;> rw [h] <;> omega

lemma fromLeBytes_append_lt (low : List UInt8) (htop : top.toNat < 128) :
    fromLeBytes (low ++ [top]) < 128 * 256 ^ low.length := by
  have hlow := fromLeBytes_lt low
  have hmul : 256 ^ low.length * top.toNat ≤ 256 ^ low.length * 127 :=
    mul_le_mul_left _ (by omega)
  rw [fromLeBytes_append, fromLeBytes, fromLeBytes, mul_zero, add_zero]
  omega

/-- The highest byte leaves a bit to the sign. -/
lemma natAbs_signedValue_lt (low : List UInt8) (msb : UInt8) :
    (signedValue low msb).natAbs < 128 * 256 ^ low.length := by
  rw [natAbs_signedValue]
  apply fromLeBytes_append_lt
  rw [toNat_and_low]
  omega

/-- The check passes exactly for minimal encodings. -/
lemma checkMinimalDataEncoding_append (low : List UInt8) (msb : UInt8) (s : σ) :
    Ends (checkMinimalDataEncoding (low ++ [msb])) s fun r s' =>
      s' = s ∧ (r = .ok () ↔ MinimalEncoding low msb) := by
  have hsaturated : lastSaturated false low ↔
      ¬(low.reverse = [] ∨ low.reverse.headD 0 &&& 0x80 = 0) := by
    cases low using List.reverseRecOn with
    | nil => simp [lastSaturated]
    | append_singleton low b =>
      have hand : (b &&& 0x80).toNat = (b.toNat.testBit 7).toNat * 2 ^ 7 := by
        rw [UInt8.toNat_and]
        exact and_two_pow _ 7
      simp [lastSaturated, ← UInt8.toNat_inj, hand, testBit_eq_decide_div_mod_eq]
      have := b.toNat_lt
      omega
  unfold checkMinimalDataEncoding MinimalEncoding
  rw [reverse_append, reverse_singleton, singleton_append, hsaturated]
  dsimp only
  split
  · next h => exact ends_throw ⟨rfl, fun h' => absurd h' (by simp), fun h' => absurd h (by tauto)⟩
  · next h => exact ends_pure ⟨rfl, fun _ => by tauto, fun _ => rfl⟩

/-- Numbers of up to eight bytes fit `i64`. -/
lemma checkedI64_of_natAbs_lt {n : ℤ} {k : ℕ} (hn : n.natAbs < 128 * 256 ^ k) (hk : k ≤ 7) :
    checkedI64 n = some n := by
  have hpow : 256 ^ k ≤ 256 ^ 7 := Nat.pow_le_pow_right (by decide) hk
  apply if_pos
  omega

/-- The bytes are added up from the highest one, and nothing overflows. -/
lemma foldlM_accumulateByte (htop : top.toNat < 128) (hlen : low.length ≤ 7) (s : σ) :
    (low.reverse.foldlM accumulateByte (top.toNat : ℤ)).outcome s =
      some (.ok (fromLeBytes (low ++ [top]) : ℤ), s) := by
  induction low with
  | nil => simp [fromLeBytes]
  | cons b low ih =>
    have hlt := fromLeBytes_append_lt (b :: low) htop
    rw [cons_append, fromLeBytes] at hlt
    have hchecked := checkedI64_of_natAbs_lt
      (n := fromLeBytes (low ++ [top]) * 256 + b.toNat) (by omega) hlen
    rw [reverse_cons, foldlM_append, outcome_bind_ok (ih (le_of_succ_le hlen)),
      foldlM_cons, accumulateByte, hchecked, outcome_bind_ok (outcome_unwrap_some _ _)]
    simp [fromLeBytes]
    ring

/-- The number of bytes that are read, and the check that they pass. -/
lemma deserializeI64_append (msb : UInt8) (hlen : low.length ≤ 7) (s : σ) :
    Ends (deserializeI64 (low ++ [msb])) s fun r s' =>
      s' = s ∧ ∀ n, r = .ok n ↔ MinimalEncoding low msb ∧ n = signedValue low msb := by
  have htop : (msb &&& 0x7f).toNat < 128 := by
    rw [toNat_and_low]
    omega
  unfold deserializeI64
  rw [if_neg (by simp; omega), reverse_append, reverse_singleton, singleton_append]
  apply (checkMinimalDataEncoding_append low msb s).bind
  · rintro _ _ ⟨rfl, hmin⟩
    apply ends_bind_of_outcome (foldlM_accumulateByte htop hlen _)
    rw [← signedValue, checkedI64_of_natAbs_lt (natAbs_signedValue_lt low msb) hlen]
    refine ⟨_, _, rfl, rfl, fun n => ⟨fun h => ?_, fun h => h.2 ▸ rfl⟩⟩
    cases h
    exact ⟨hmin.mp rfl, rfl⟩
  · rintro e _ ⟨rfl, hmin⟩
    exact ⟨rfl, fun n => ⟨fun h => absurd h (by simp), fun h => absurd (hmin.mpr h.1) (by simp)⟩⟩

/-- A number that is read is in the range of its bytes. -/
lemma deserializeI64_ends (s : σ) : Ends (deserializeI64 v) s fun r s' =>
      s' = s ∧ ∀ n, r = .ok n → |n| < 128 * 256 ^ (v.length - 1) := by
  by_cases hlen : v.length > 8
  · rw [deserializeI64, if_pos hlen]
    exact ends_throw ⟨rfl, fun n hn => nomatch hn⟩
  · cases v using List.reverseRecOn with
    | nil =>
      refine ends_pure ⟨rfl, fun n hn => ?_⟩
      cases hn
      decide
    | append_singleton low msb =>
      rw [length_append, length_singleton] at hlen ⊢
      apply (deserializeI64_append msb (by omega) s).mono
      rintro r s' ⟨hs', hr⟩
      refine ⟨hs', fun n hn => ?_⟩
      rw [((hr n).mp hn).2, Nat.add_sub_cancel, ← Int.natCast_natAbs]
      exact_mod_cast natAbs_signedValue_lt low msb

/-- So it is where the length is limited. -/
lemma deserializeSized_ends (len : ℕ) (v : List UInt8) (s : σ) :
    Ends (deserializeSized len v) s fun r s' =>
      s' = s ∧ ∀ n, r = .ok n → v.length ≤ len ∧ |n| < 128 * 256 ^ (v.length - 1) := by
  unfold deserializeSized
  split
  · exact ends_throw ⟨rfl, fun n hn => nomatch hn⟩
  · next hlen =>
    apply (deserializeI64_ends v s).mono
    rintro r s' ⟨hs', hn⟩
    exact ⟨hs', fun n h => ⟨by omega, hn n h⟩⟩

/-- Four bytes fit `i32`. -/
lemma deserializeI32_ends (s : σ) : Ends (deserializeI32 v) s fun _ s' => s' = s := by
  apply (deserializeSized_ends 4 v s).bind
  · rintro n s' ⟨hs', hn⟩
    obtain ⟨hlen, hbound⟩ := hn n rfl
    have hpow : (256 : ℤ) ^ (v.length - 1) ≤ 256 ^ 3 := by
      apply pow_le_pow_right₀ <;> omega
    have hlt : |n| < 2 ^ 31 := by
      calc |n| < 128 * 256 ^ (v.length - 1) := hbound
        _ ≤ 128 * 256 ^ 3 := by omega
        _ = 2 ^ 31 := by norm_num
    have hchecked : checkedI32 n = some n := by
      apply if_pos
      have := abs_lt.mp hlt
      omega
    rw [hchecked]
    exact ⟨_, _, rfl, hs'⟩
  · exact fun e s' h => h.1

/-- A number other than zero has a byte to carry its sign. -/
lemma magnitudeBytes_ne_nil {positive : ℕ} (h : positive ≠ 0) (fuel : ℕ) (saturated : Bool) :
    magnitudeBytes (fuel + 1) positive saturated ≠ [] := by
  rw [magnitudeBytes, if_neg h]
  exact cons_ne_nil _ _

/-- Encoding a number does not panic. -/
lemma serializeSized_ends (len : ℕ) (n : ℤ) (s : σ) :
    Ends (serializeSized len n) s fun _ s' => s' = s := by
  have hserialize : Ends (serializeI64 n) s fun _ s' => s' = s := by
    unfold serializeI64
    dsimp only
    split
    · next hneg =>
      split
      · next hnil =>
        rw [reverse_eq_nil_iff] at hnil
        exact absurd hnil (magnitudeBytes_ne_nil (by omega) 8 false)
      · exact ends_pure rfl
    · exact ends_pure rfl
  apply hserialize.bind
  · intro bytes s' hs'
    split
    · exact ends_throw hs'
    · exact ends_pure hs'
  · exact fun e s' h => h

/-! ## Encodings -/

/-- Bytes with a last one below 128 are those of their magnitude, unless the last one could be left
out. -/
lemma magnitudeBytes_fromLeBytes (htop : top.toNat < 128)
    (fuel : ℕ) (hfuel : low.length + 1 < fuel) {saturated : Bool}
    (hmin : top ≠ 0 ∨ lastSaturated saturated low) :
    magnitudeBytes fuel (fromLeBytes (low ++ [top])) saturated = low ++ [top] := by
  have hdone : ∀ fuel, magnitudeBytes fuel 0 false = [] := by
    intro fuel
    cases fuel <;> rfl
  induction low generalizing fuel saturated with
  | nil =>
    obtain _ | fuel := fuel
    · omega
    by_cases hzero : top = 0
    · have hsaturated : saturated = true := hmin.resolve_left (not_not.mpr hzero)
      subst hzero hsaturated
      simp [magnitudeBytes, fromLeBytes, hdone]
    · have hpos : top.toNat ≠ 0 := fun h => hzero (UInt8.toNat_inj.mp h)
      have hdiv : top.toNat / 256 = 0 := by omega
      have hhigh : ¬128 ≤ top.toNat := by omega
      simp [magnitudeBytes, fromLeBytes, hpos, hdiv, hhigh, hdone]
  | cons b low ih =>
    rw [length_cons] at hfuel
    obtain _ | fuel := fuel
    · omega
    have hrest : magnitudeBytes fuel (fromLeBytes (low ++ [top])) (128 ≤ b.toNat) = low ++ [top] :=
      ih fuel (by omega) hmin
    have hb := b.toNat_lt
    rw [cons_append, fromLeBytes, magnitudeBytes]
    split
    · -- nothing would be left to encode, but the last byte is
      rw [show fromLeBytes (low ++ [top]) = 0 by omega, decide_eq_false (by omega), hdone] at hrest
      exact absurd hrest.symm (by simp)
    · have hmod : (b.toNat + 256 * fromLeBytes (low ++ [top])) % 256 = b.toNat := by omega
      have hdiv : (b.toNat + 256 * fromLeBytes (low ++ [top])) / 256 =
          fromLeBytes (low ++ [top]) := by omega
      simp only [hmod, hdiv, hrest, UInt8.ofNat_toNat]

/-- Every magnitude has such bytes, as few as its range needs. -/
lemma exists_fromLeBytes (positive : ℕ) {saturated : Bool} (hpos : positive ≠ 0 ∨ saturated) :
    ∃ low top, top.toNat < 128 ∧ (top ≠ 0 ∨ lastSaturated saturated low) ∧
      fromLeBytes (low ++ [top]) = positive ∧ ∀ k, positive < 128 * 256 ^ k → low.length ≤ k := by
  induction positive using Nat.strong_induction_on generalizing saturated with
  | _ positive ih =>
    have hbyte : (UInt8.ofNat positive).toNat = positive % 256 := UInt8.toNat_ofNat'
    by_cases hsmall : positive < 128
    · rw [mod_eq_of_lt (by omega)] at hbyte
      refine ⟨[], UInt8.ofNat positive, by omega, hpos.imp_left ?_, ?_, fun k _ => zero_le k⟩
      · rintro hne hzero
        exact hne (by rw [← hbyte, hzero]; rfl)
      · simp [fromLeBytes, hbyte]
    · obtain ⟨low, top, htop, hmin, hvalue, hlen⟩ := @ih (positive / 256) (by omega)
        (128 ≤ positive % 256) (by rw [decide_eq_true_iff]; omega)
      refine ⟨UInt8.ofNat positive :: low, top, htop, ?_, ?_, fun k hk => ?_⟩
      · simpa only [lastSaturated, foldl_cons, hbyte] using hmin
      · rw [cons_append, fromLeBytes, hvalue, hbyte]
        omega
      · cases k with
        | zero => omega
        | succ k =>
          rw [pow_succ] at hk
          exact succ_le_succ (hlen k (by omega))

/-- Minimal bytes are the encoding of their number. -/
lemma serializeI64_signedValue (hlen : low.length ≤ 7) (hmin : MinimalEncoding low msb) (s : σ) :
    (serializeI64 (signedValue low msb)).outcome s = some (.ok (low ++ [msb]), s) := by
  have hlow := toNat_and_low msb
  have hbytes := magnitudeBytes_fromLeBytes (by omega) 9 (by omega) hmin
  have hpos : fromLeBytes (low ++ [msb &&& 0x7f]) ≠ 0 := by
    intro hzero
    rw [hzero] at hbytes
    exact absurd hbytes (by simp [magnitudeBytes])
  have hmsb := msb.toNat_lt
  unfold serializeI64
  rw [natAbs_signedValue, signedValue, toNat_shiftRight_sign, hbytes]
  by_cases hneg : 128 ≤ msb.toNat
  · have hor : (msb &&& 0x7f) ||| 0x80 = msb := by
      apply UInt8.toNat_inj.mp
      rw [UInt8.toNat_or, hlow, Nat.or_comm]
      have hadd := two_pow_add_eq_or_of_lt (i := 7) (b := msb.toNat % 128) (by omega) 1
      exact hadd.symm.trans (by omega)
    rw [show msb.toNat / 128 = 1 by omega, if_pos (by omega)]
    simp [hor]
  · have hand : msb &&& 0x7f = msb := by
      apply UInt8.toNat_inj.mp
      omega
    rw [show msb.toNat / 128 = 0 by omega, if_neg (by omega), hand, outcome_pure]

lemma serializeSized_signedValue (hlen : low.length ≤ 7) (hmin : MinimalEncoding low msb) (s : σ) :
    (serializeSized 8 (signedValue low msb)).outcome s = some (.ok (low ++ [msb]), s) := by
  rw [serializeSized, outcome_bind_ok (serializeI64_signedValue hlen hmin s),
    if_neg (by simp; omega), outcome_pure]

/-- Every number other than zero has minimal bytes. -/
lemma exists_signedValue {n : ℤ} (hn : n ≠ 0) :
    ∃ low msb, MinimalEncoding low msb ∧ signedValue low msb = n ∧
      ∀ k, n.natAbs < 128 * 256 ^ k → low.length ≤ k := by
  obtain ⟨low, top, htop, hmin, hvalue, hlen⟩ :=
    @exists_fromLeBytes n.natAbs false (.inl (by omega))
  -- the sign bit
  obtain ⟨bit, hbit, hsign⟩ : ∃ bit : ℕ, bit < 2 ∧ n = n.natAbs * (1 - 2 * (bit : ℤ)) :=
    if h : n < 0 then ⟨1, by omega⟩ else ⟨0, by omega⟩
  obtain ⟨msb, hmsb⟩ : ∃ msb : UInt8, msb.toNat = top.toNat + 128 * bit :=
    ⟨UInt8.ofNat _, UInt8.toNat_ofNat_of_lt' (by unfold UInt8.size; omega)⟩
  have hand : msb &&& 0x7f = top := by
    apply UInt8.toNat_inj.mp
    rw [toNat_and_low]
    omega
  refine ⟨low, msb, ?_, ?_, hlen⟩
  · rw [MinimalEncoding, hand]
    exact hmin
  · rw [signedValue, hand, hvalue, toNat_shiftRight_sign, show msb.toNat / 128 = bit by omega]
    exact hsign.symm

/-- Numbers other than the minimum of `i64` are read back from their encodings, which have at most
four bytes in the range of four bytes, and a number has no other encoding that is read. -/
theorem deserializeSized_serializeSized (s : σ) :
    (∀ n : ℤ, n.natAbs < 2 ^ 63 → ∃ v, (serializeSized 8 n).outcome s = some (.ok v, s) ∧
      (deserializeSized 8 v).outcome s = some (.ok n, s) ∧ (n.natAbs < 2 ^ 31 → v.length ≤ 4)) ∧
    ∀ v n s', v.length ≤ 8 → (deserializeSized 8 v).outcome s = some (.ok n, s') →
      (serializeSized 8 n).outcome s = some (.ok v, s) := by
  have hdeserialize : ∀ {v : List UInt8}, v.length ≤ 8 →
      (deserializeSized 8 v).outcome s = (deserializeI64 v).outcome s :=
    fun h => by rw [deserializeSized, if_neg (by omega)]
  constructor
  · intro n hn
    by_cases hzero : n = 0
    · subst hzero
      exact ⟨[], rfl, rfl, fun _ => zero_le 4⟩
    · obtain ⟨low, msb, hmin, rfl, hlow⟩ := exists_signedValue hzero
      have hlen := hlow 7 hn
      refine ⟨_, serializeSized_signedValue hlen hmin s, ?_,
        fun h => length_append.trans_le (succ_le_succ (hlow 3 h))⟩
      obtain ⟨r, s', hout, rfl, hr⟩ := deserializeI64_append msb hlen s
      rw [hdeserialize (by simp; omega), hout, (hr _).mpr ⟨hmin, rfl⟩]
  · intro v n s' hlen hout
    rw [hdeserialize hlen] at hout
    cases v using List.reverseRecOn with
    | nil =>
      cases hout
      rfl
    | append_singleton low msb =>
      rw [length_append, length_singleton] at hlen
      obtain ⟨hmin, rfl⟩ := (((deserializeI64_append msb (by omega) s).of_outcome hout).2 n).mp rfl
      exact serializeSized_signedValue (by omega) hmin s

/-- A negative number is read back. -/
theorem deserializeSized_serializeSized_neg :
    ∃ v, (serializeSized 8 (-300)).outcome () = some (.ok v, ()) ∧
      (deserializeSized 8 v).outcome () = some (.ok (-300), ()) ∧ v.length ≤ 4 := by
  obtain ⟨v, hs, hd, h4⟩ := (deserializeSized_serializeSized ()).1 (-300) (by decide)
  exact ⟨v, hs, hd, h4 (by decide)⟩

/-! ## Operations -/

/-- The items are taken off, or the stack is as it was. -/
lemma popRaw_ends : Ends (popRaw size) stack fun r stack' =>
      (size ≤ stack.length ∧ r = .ok (stack.take size).reverse ∧ stack' = stack.drop size) ∨
      (stack.length < size ∧ r = .error (.invalidStackOperation size stack.length)
        ∧ stack' = stack) := by
  apply ends_get_bind
  split
  · next h => exact ends_throw (.inr ⟨h, rfl, rfl⟩)
  · next h => exact ⟨_, _, rfl, .inl ⟨by omega, rfl, rfl⟩⟩

lemma safe_popRaw : Safe (popRaw size) :=
  fun stack => (popRaw_ends size stack).mono fun _ _ _ => trivial

/-- As many items as asked for are read. -/
lemma popItems_ends {α : Type} {deserialize : List UInt8 → StackM α}
    (h : ∀ v, Safe (deserialize v)) (size : ℕ) (stack : Stack) :
    Ends (popItems deserialize size) stack fun r _ =>
      ∀ items, r = .ok items → items.length = size := by
  apply (popRaw_ends size stack).bind
  · intro raw stack' hraw
    apply (ends_mapM h raw stack').mono
    intro r _ hr items hitems
    rcases hraw with ⟨hle, hok, -⟩ | ⟨-, herr, -⟩
    · cases hok
      rw [hr items hitems, length_reverse, length_take, min_eq_left hle]
    · cases herr
  · exact fun e stack' _ items hitems => nomatch hitems

section
variable {α : Type} {p : StackM (List α)}

/-- A list of one item has its item. -/
lemma safe_exactly1 (h : ∀ s, Ends p s fun r _ => ∀ items, r = .ok items → items.length = 1) :
    Safe (do exactly1 (← p)) := by
  intro s
  apply (h s).bind
  · intro items s' hlen
    obtain ⟨a, rfl⟩ := length_eq_one_iff.mp (hlen items rfl)
    exact ends_pure trivial
  · exact fun _ _ _ => trivial

/-- A program that returns two items can be matched on two. -/
lemma safe_exactly2 (h : ∀ s, Ends p s fun r _ => ∀ items, r = .ok items → items.length = 2) :
    Safe (do exactly2 (← p)) := by
  intro s
  apply (h s).bind
  · intro items s' hlen
    obtain ⟨a, b, rfl⟩ := length_eq_two.mp (hlen items rfl)
    exact ends_pure trivial
  · exact fun _ _ _ => trivial

lemma safe_exactly3 (h : ∀ s, Ends p s fun r _ => ∀ items, r = .ok items → items.length = 3) :
    Safe (do exactly3 (← p)) := by
  intro s
  apply (h s).bind
  · intro items s' hlen
    obtain ⟨a, b, c, rfl⟩ := length_eq_three.mp (hlen items rfl)
    exact ends_pure trivial
  · exact fun _ _ _ => trivial

end

/-- As many items as asked for are taken off. -/
lemma popRaw_ends_length :
    Ends (popRaw size) stack fun r _ => ∀ items, r = .ok items → items.length = size := by
  apply (popRaw_ends size stack).mono
  rintro r stack' (⟨hle, rfl, -⟩ | ⟨-, rfl, -⟩) items hitems
  · cases hitems
    rw [length_reverse, length_take, min_eq_left hle]
  · cases hitems

lemma peekRaw_ends_length :
    Ends (peekRaw size) stack fun r _ => ∀ items, r = .ok items → items.length = size := by
  apply ends_get_bind
  split
  · exact ends_throw fun items hitems => nomatch hitems
  · next hle =>
    apply ends_pure
    intro items hitems
    cases hitems
    rw [length_reverse, length_take]
    omega

lemma safe_deserializeSized (len : ℕ) (v : List UInt8) :
    Safe (deserializeSized len v : Program σ TxScriptError ℤ) :=
  fun s => (deserializeSized_ends len v s).mono fun _ _ _ => trivial

lemma safe_deserializeI32 : Safe (deserializeI32 v : Program σ TxScriptError ℤ) :=
  fun s => (deserializeI32_ends v s).mono fun _ _ _ => trivial

/-- No operation panics. -/
lemma safe_popRaw1 : Safe popRaw1 := safe_exactly1 (popRaw_ends_length 1)

lemma safe_popRaw2 : Safe popRaw2 := safe_exactly2 (popRaw_ends_length 2)

lemma safe_peekRaw1 : Safe peekRaw1 := safe_exactly1 (peekRaw_ends_length 1)

section
variable {α : Type} {deserialize : List UInt8 → StackM α} (h : ∀ v, Safe (deserialize v))
include h

lemma safe_popItems1 : Safe (popItems1 deserialize) := safe_exactly1 (popItems_ends h 1)

lemma safe_popItems2 : Safe (popItems2 deserialize) := safe_exactly2 (popItems_ends h 2)

lemma safe_popItems3 : Safe (popItems3 deserialize) := safe_exactly3 (popItems_ends h 3)

end

lemma safe_popI32 : Safe popI32 := safe_popItems1 safe_deserializeI32

lemma safe_popBool : Safe popBool := safe_popItems1 fun v => keeps_pure (toBool v)

lemma safe_push (item : List UInt8) : Safe (push item) := keeps_modify fun _ => trivial

lemma safe_pushNumber (n : ℤ) : Safe (pushNumber n) :=
  Keeps.bind (fun s => (serializeSized_ends 8 n s).mono fun _ _ _ => trivial) safe_push

lemma safe_pushBool (b : Bool) : Safe (pushBool b) := safe_push _

/-- A stack that is too short is an error. -/
lemma safe_rearrange (required : ℕ) (f : Stack → Stack) : Safe (rearrange required f) := by
  apply keeps_get.bind
  intro stack
  apply keeps_ite
  · exact fun _ _ => ⟨_, _, rfl, trivial⟩
  · exact fun _ => keeps_throw _

lemma safe_popEqual : Safe popEqual := by
  apply keeps_get.bind
  intro stack
  split
  · exact fun _ => ⟨_, _, rfl, trivial⟩
  · exact keeps_throw _

end LapisMonetae.Script
