import Mathlib.Data.List.Basic

/-!
# Parallel reductions

A parallel `reduce` splits a sequence of items anywhere, starts every part with an identity and
combines the parts in order. What the operation concatenates does not depend on the splits.
-/

namespace LapisMonetae

/-- The way in which a sequence of items is combined: any tree over the items, with identities
anywhere. -/
inductive Reduction {α : Type} : List α → Type
  | identity : Reduction []
  | item (a : α) : Reduction [a]
  | combine {l l' : List α} (left : Reduction l) (right : Reduction l') : Reduction (l ++ l')

namespace Reduction

variable {α β : Type}

/-- From left to right. -/
def sequential : (l : List α) → Reduction l
  | [] => identity
  | a :: l => combine (item a) (sequential l)

/-- `reduce`, with the function for the identity and the operation. -/
def reduce (unit : α) (op : α → α → α) {l : List α} : Reduction l → α
  | identity => unit
  | item a => a
  | combine left right => op (left.reduce unit op) (right.reduce unit op)

/-- A part of the items that is concatenated. -/
lemma reduce_flatMap {unit : α} {op : α → α → α} (part : α → List β) (hunit : part unit = [])
    (hop : ∀ a b, part (op a b) = part a ++ part b) {l : List α} (r : Reduction l) :
    part (r.reduce unit op) = l.flatMap part := by
  induction r with
  | identity => exact hunit
  | item a => exact (List.flatMap_singleton part a).symm
  | combine left right hleft hright =>
    rw [reduce, hop, hleft, hright, List.flatMap_append]

end Reduction

end LapisMonetae
