import Mathlib.Order.Basic
import Mathlib.Tactic.Common

/-!
# Programs with fuel

A loop is modelled by a function of a fuel that bounds its number of rounds and that returns
`none` when the fuel ends. More fuel never changes a result.
-/

lemma some_bind_eq {α β : Type} (a : α) (f : α → Option β) : (some a >>= f) = f a := rfl

namespace Fuel

open Option

variable {α β : Type}
variable {x x' : Option α} {a : α} {f : ℕ → Option α} {y y' : Option α}

/-- `y` has the value of `x` wherever `x` has one. -/
def Below (x y : Option α) : Prop := ∀ a, x = some a → y = some a

lemma Below.refl (x : Option α) : Below x x := fun _ h => h

lemma Below.none (y : Option α) : Below Option.none y := fun _ h => nomatch h

lemma Below.bind {f f' : α → Option β} (hx : Below x x') (hf : ∀ a, Below (f a) (f' a)) :
    Below (x >>= f) (x' >>= f') := by
  intro b hb
  obtain ⟨a, ha, hb⟩ := bind_eq_some_iff.mp hb
  exact bind_eq_some_iff.mpr ⟨a, hx a ha, hf a b hb⟩

lemma Below.map {f : α → β} (hx : Below x x') : Below (x.map f) (x'.map f) := by
  intro b hb
  obtain ⟨a, ha, hb⟩ := map_eq_some_iff.mp hb
  exact map_eq_some_iff.mpr ⟨a, hx a ha, hb⟩

lemma Below.ite {p : Prop} [Decidable p] (hx : Below x x') (hy : Below y y') :
    Below (if p then x else y) (if p then x' else y') := by
  split
  · exact hx
  · exact hy

/-- A round that only differs in its last part. -/
lemma Below.after {x : Option β} {f f' : β → Option α} (hf : ∀ a, Below (f a) (f' a)) :
    Below (x >>= f) (x >>= f') := Below.bind (Below.refl x) hf

lemma Below.orElse {p : Prop} [Decidable p] (hy : Below y y') :
    Below (if p then x else y) (if p then x else y') := Below.ite (Below.refl x) hy

/-- Two runs of a loop are compared round by round. -/
lemma rounds {motive : ℕ → ℕ → Prop} (hzero : ∀ fuel', motive 0 fuel')
    (hsucc : ∀ fuel fuel', motive fuel fuel' → motive (fuel + 1) (fuel' + 1)) :
    ∀ fuel fuel', fuel ≤ fuel' → motive fuel fuel' := by
  intro fuel
  induction fuel with
  | zero => exact fun fuel' _ => hzero fuel'
  | succ fuel ih =>
    intro fuel' hle
    obtain ⟨fuel', rfl⟩ : ∃ f, fuel' = f + 1 := ⟨fuel' - 1, by omega⟩
    exact hsucc fuel fuel' (ih fuel' (by omega))

/-- A program with fuel whose results do not change with more fuel. -/
def Stable (f : ℕ → Option α) : Prop := ∀ fuel fuel', fuel ≤ fuel' → Below (f fuel) (f fuel')

/-- The program returns `a` once it has enough fuel. -/
def Returns (f : ℕ → Option α) (a : α) : Prop := ∃ enough, ∀ fuel, enough ≤ fuel → f fuel = some a

lemma Stable.returns (hf : Stable f) {fuel : ℕ} (h : f fuel = some a) :
    Returns f a := ⟨fuel, fun fuel' hle => hf fuel fuel' hle a h⟩

lemma Returns.unique {b : α} (ha : Returns f a) (hb : Returns f b) : a = b := by
  obtain ⟨n, hn⟩ := ha
  obtain ⟨n', hn'⟩ := hb
  have h := hn (max n n') (Nat.le_max_left _ _)
  rw [hn' (max n n') (Nat.le_max_right _ _)] at h
  exact (some.inj h).symm

/-- One program after the other. -/
lemma Returns.bind {g : ℕ → α → Option β} {b : β} (hf : Returns f a)
    (hg : Returns (fun fuel => g fuel a) b) : Returns (fun fuel => (f fuel).bind (g fuel)) b := by
  obtain ⟨n, hn⟩ := hf
  obtain ⟨n', hn'⟩ := hg
  refine ⟨max n n', fun fuel hfuel => ?_⟩
  show (f fuel).bind (g fuel) = some b
  rw [hn fuel (by omega)]
  exact hn' fuel (by omega)

/-- The first round of a loop and what the loop returns after it. -/
lemma Returns.of_succ {g : ℕ → Option α} (hg : Returns g a)
    (hround : ∀ fuel, f (fuel + 1) = g fuel) : Returns f a := by
  obtain ⟨enough, hg⟩ := hg
  refine ⟨enough + 1, fun fuel hfuel => ?_⟩
  obtain ⟨fuel, rfl⟩ := Nat.exists_eq_add_of_le' (Nat.le_trans (Nat.le_add_left 1 enough) hfuel)
  rw [hround, hg fuel (by omega)]

lemma returns_const (a : α) : Returns (fun _ => some a) a := ⟨0, fun _ _ => rfl⟩

end Fuel
