import Mathlib.Data.List.DropRight
import Mathlib.Data.List.Induction
import Mathlib.Data.Nat.Notation
import Mathlib.Tactic.Ring

/-!
# Little-endian bytes

Fixed-width little-endian encodings of natural numbers. Reading and writing are inverse to each
other at a given width, so a reader accepts one encoding of each number only.
-/

namespace LapisMonetae.LittleEndian

/-- The `width` low bytes of `n`, lowest first. -/
def toLeBytes : ℕ → ℕ → List UInt8
  | 0, _ => []
  | width + 1, n => UInt8.ofNat n :: toLeBytes width (n / 256)

/-- The number whose bytes are `bytes`, lowest first. -/
def fromLeBytes : List UInt8 → ℕ
  | [] => 0
  | b :: bytes => b.toNat + 256 * fromLeBytes bytes

@[simp] lemma length_toLeBytes (width n : ℕ) : (toLeBytes width n).length = width := by
  induction width generalizing n with
  | zero => rfl
  | succ width ih => simp [toLeBytes, ih]

lemma fromLeBytes_lt (bytes : List UInt8) : fromLeBytes bytes < 256 ^ bytes.length := by
  induction bytes with
  | nil => simp [fromLeBytes]
  | cons b bytes ih =>
    have hb := b.toNat_lt
    rw [fromLeBytes, List.length_cons, Nat.pow_succ]
    omega

/-- What is written at a sufficient width is read back. -/
lemma fromLeBytes_toLeBytes {width n : ℕ} (h : n < 256 ^ width) :
    fromLeBytes (toLeBytes width n) = n := by
  induction width generalizing n with
  | zero => simp_all [toLeBytes, fromLeBytes]
  | succ width ih =>
    have hdiv : n / 256 < 256 ^ width := by
      rw [Nat.pow_succ] at h
      omega
    have hlow : (UInt8.ofNat n).toNat = n % 256 := by simp
    rw [toLeBytes, fromLeBytes, ih hdiv, hlow]
    omega

lemma toLeBytes_inj {width n m : ℕ} (hn : n < 256 ^ width) (hm : m < 256 ^ width)
    (h : toLeBytes width n = toLeBytes width m) : n = m := by
  rw [← fromLeBytes_toLeBytes hn, h, fromLeBytes_toLeBytes hm]

/-- What is read is written back, leading zeros included. -/
lemma toLeBytes_fromLeBytes (bytes : List UInt8) :
    toLeBytes bytes.length (fromLeBytes bytes) = bytes := by
  induction bytes with
  | nil => rfl
  | cons b bytes ih =>
    have hb := b.toNat_lt
    have hdiv : (b.toNat + 256 * fromLeBytes bytes) / 256 = fromLeBytes bytes := by omega
    have hlow : UInt8.ofNat (b.toNat + 256 * fromLeBytes bytes) = b := by
      apply UInt8.toNat_inj.mp
      rw [UInt8.toNat_ofNat']
      omega
    rw [List.length_cons, fromLeBytes, toLeBytes, hdiv, hlow, ih]

lemma fromLeBytes_append (bytes bytes' : List UInt8) :
    fromLeBytes (bytes ++ bytes') = fromLeBytes bytes + 256 ^ bytes.length * fromLeBytes bytes' := by
  induction bytes with
  | nil => simp [fromLeBytes]
  | cons b bytes ih =>
    rw [List.cons_append, fromLeBytes, fromLeBytes, ih, List.length_cons]
    ring

/-- Zeros at the end do not count. -/
lemma fromLeBytes_rdropWhile (bytes : List UInt8) :
    fromLeBytes (bytes.rdropWhile (· == 0)) = fromLeBytes bytes := by
  induction bytes using List.reverseRecOn with
  | nil => rfl
  | append_singleton bytes b ih =>
    rw [List.rdropWhile_concat]
    split
    · next hb => rw [ih, fromLeBytes_append, eq_of_beq hb]; simp [fromLeBytes]
    · rfl

/-! ## Words one after the other -/

/-- In a concatenation of words of one width, each word is read back at its place. -/
lemma take_drop_flatMap {α β : Type*} (f : α → List β) {width : ℕ}
    (hf : ∀ a, (f a).length = width) {l : List α} {i : ℕ} (hi : i < l.length) :
    ((l.flatMap f).drop (width * i)).take width = f l[i] := by
  induction l generalizing i with
  | nil => exact absurd hi (Nat.not_lt_zero i)
  | cons a l ih =>
    cases i with
    | zero => simp [← hf a]
    | succ i =>
      have hskip : width * (i + 1) = (f a).length + width * i := by
        rw [hf a]
        ring
      rw [List.flatMap_cons, hskip, List.drop_length_add_append]
      exact ih (Nat.lt_of_succ_lt_succ hi)

section
variable {α β γ : Type*} {f : α → List β} {s t : List β}

/-- A word of known length is read back in front of anything. -/
lemma append_inj_iff {a b : α} (hlen : (f a).length = (f b).length) (hinj : f a = f b → a = b) :
    f a ++ s = f b ++ t ↔ a = b ∧ s = t := by
  constructor
  · intro h
    obtain ⟨h, hs⟩ := List.append_inj h hlen
    exact ⟨hinj h, hs⟩
  · rintro ⟨rfl, rfl⟩
    rfl

/-- So are the words of a list of known length, each as far as it is read back. -/
lemma flatMap_append_inj {g : α → γ} (hf : ∀ a b s t, f a ++ s = f b ++ t ↔ g a = g b ∧ s = t) :
    ∀ {l l' : List α}, l.length = l'.length →
      (l.flatMap f ++ s = l'.flatMap f ++ t ↔ l.map g = l'.map g ∧ s = t)
  | [], [], _ => by simp
  | a :: l, b :: l', h => by simp [hf, flatMap_append_inj hf (Nat.succ.inj h), and_assoc]

end

end LapisMonetae.LittleEndian
