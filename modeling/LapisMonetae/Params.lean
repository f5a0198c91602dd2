import LapisMonetae.Lib.Checked
import Mathlib.Algebra.Ring.Nat
import Mathlib.Order.Basic
import Mathlib.Data.Nat.Notation

/-!
# Block hashes and fork-dependent parameters

The vocabulary every component shares: block hashes with their two reserved values, and the
consensus parameters whose value depends on whether the Crescendo fork is active.
-/

namespace LapisMonetae

/-- A block hash, read as the big-endian number of its 32 bytes. The consensus code only
compares hashes, for equality and (as a tie breaker) by their byte order. -/
abbrev Hash := ℕ

/-- `blockhash::NONE`: the hash used where there is no block. -/
def BlockHash.none : Hash := 0

/-- `blockhash::ORIGIN`: the virtual genesis, in the past of every known block. -/
def BlockHash.origin : Hash :=
  0xfefefefefefefefefefefefefefefefefefefefefefefefefefefefefefefefe

/-! ## Forked parameters -/

/-- The DAA score from which a fork is active. -/
structure ForkActivation where
  daaScore : ℕ
deriving DecidableEq, Repr

namespace ForkActivation

/-- A fork that is never scheduled. -/
def never : ForkActivation := ⟨u64Max⟩

/-- A fork that is active since inception. -/
def always : ForkActivation := ⟨0⟩

/-- Whether the fork is active at `currentDaaScore`. -/
def isActive (a : ForkActivation) (currentDaaScore : ℕ) : Bool :=
  decide (a.daaScore ≤ currentDaaScore)

end ForkActivation

/-- A consensus parameter which depends on a fork activation. -/
structure ForkedParam (α : Type) where
  pre : α
  post : α
  activation : ForkActivation
deriving DecidableEq, Repr

namespace ForkedParam

variable {α : Type}

/-- A parameter the fork does not change. -/
def newConst (val : α) : ForkedParam α := ⟨val, val, .never⟩

/-- The value in force at `daaScore`. -/
def get (p : ForkedParam α) (daaScore : ℕ) : α :=
  if p.activation.isActive daaScore then p.post else p.pre

/-- The value before activation (`pre` unless the fork is always active). -/
def before (p : ForkedParam α) : α :=
  if p.activation = .always then p.post else p.pre

/-- The long-term value after activation (`post` unless the fork is never scheduled). -/
def after (p : ForkedParam α) : α :=
  if p.activation = .never then p.pre else p.post

/-- The smaller of the two values, over the scheduled part of the history. -/
def lowerBound [Min α] (p : ForkedParam α) : α :=
  if p.activation = .never then p.pre
  else if p.activation = .always then p.post
  else min p.pre p.post

/-- The larger of the two values, over the scheduled part of the history. -/
def upperBound [Max α] (p : ForkedParam α) : α :=
  if p.activation = .never then p.pre
  else if p.activation = .always then p.post
  else max p.pre p.post

end ForkedParam

end LapisMonetae
