import LapisMonetae.Params
import Mathlib.Algebra.BigOperators.Group.List.Basic
import Mathlib.Data.List.AList

/-!
# The reachability store

The errors and the outcomes of the calls, the intervals, and what the ordered lists of blocks share.
-/

namespace LapisMonetae.Reachability

/-- `ReachabilityError`, with the store errors that occur. -/
inductive ReachabilityError where
  | keyNotFound (hash : Hash)
  | hashAlreadyExists (hash : Hash)
deriving DecidableEq, Repr

/-- The ways in which a call does not return a value. -/
inductive Failure where
  | error (e : ReachabilityError)
  | panicked
  | outOfFuel
deriving DecidableEq, Repr

/-- The outcome of a call. -/
abbrev Result (α : Type) := Except Failure α

/-- A returned error. -/
def err {α : Type} (e : ReachabilityError) : Result α := .error (.error e)

/-- A failed assertion, or a failed check of the arithmetic. -/
def fail {α : Type} : Result α := .error .panicked

def unwrap {α : Type} : Result α → Result α
  | .ok a => .ok a
  | .error .outOfFuel => .error .outOfFuel
  | .error _ => fail

structure Interval where
  start : ℕ
  end_ : ℕ
deriving DecidableEq, Repr, Inhabited

namespace ReachabilityStore

/-- `Vec::splice` of one element. -/
def splice (l : List Hash) (index : ℕ) (replaceWith : List Hash) : List Hash :=
  l.take index ++ replaceWith ++ l.drop (index + 1)

end ReachabilityStore

end LapisMonetae.Reachability
