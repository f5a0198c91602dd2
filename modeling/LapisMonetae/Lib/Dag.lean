import Mathlib.Logic.Relation
import Mathlib.Data.Finset.Card
import Mathlib.Data.Finset.Filter
import Mathlib.Data.Fintype.Card
import Mathlib.Data.Fintype.EquivFin
import Mathlib.Data.Fintype.Sets
import Mathlib.Order.WellFounded

/-!
# Directed acyclic graphs of blocks

The past of a block under a parent relation, mergesets, and anticones within a finite set.
-/

namespace Dag

open Relation Classical ReflTransGen

variable {α : Type} {parent : α → α → Prop}
variable {s : Finset α} {a b c x : α}

/-- `a` is `b` or in the past of `b`. -/
def InPast (parent : α → α → Prop) (a b : α) : Prop := ReflTransGen parent a b

/-- `a` is strictly in the past of `b`. -/
def Past (parent : α → α → Prop) (a b : α) : Prop := TransGen parent a b

/-- Neither block is in the past of the other, and they are different. -/
def Anticone (parent : α → α → Prop) (a b : α) : Prop := ¬InPast parent a b ∧ ¬InPast parent b a

/-- No block of the set is in the past of another one. -/
def Antichain (parent : α → α → Prop) (s : α → Prop) : Prop :=
  ∀ p q, s p → s q → InPast parent p q → p = q

lemma InPast.refl (a : α) : InPast parent a a := ReflTransGen.refl

lemma InPast.trans (h1 : InPast parent a b) (h2 : InPast parent b c) :
    InPast parent a c := ReflTransGen.trans h1 h2

lemma InPast.of_parent {p : α} (h : parent p b) : InPast parent p b :=
  ReflTransGen.single h

lemma Past.inPast (h : Past parent a b) : InPast parent a b := h.to_reflTransGen

lemma InPast.trans_past (h1 : InPast parent a b) (h2 : Past parent b c) :
    Past parent a c := TransGen.trans_right h1 h2

lemma Past.trans_inPast (h1 : Past parent a b) (h2 : InPast parent b c) :
    Past parent a c := TransGen.trans_left h1 h2

/-- A block in the past is the block itself or strictly in the past. -/
lemma InPast.eq_or_past (h : InPast parent a b) : a = b ∨ Past parent a b := by
  rcases reflTransGen_iff_eq_or_transGen.mp h with h | h
  · exact Or.inl h.symm
  · exact Or.inr h

lemma Past.cases_parent (h : Past parent a b) : ∃ p, parent p b ∧ InPast parent a p := by
  obtain ⟨p, hap, hpb⟩ := TransGen.tail'_iff.mp h
  exact ⟨p, hpb, hap⟩

lemma past_iff : Past parent a x ↔ ∃ p, parent p x ∧ InPast parent a p := by
  constructor
  · exact fun h => h.cases_parent
  · rintro ⟨p, hp, ha⟩
    exact ha.trans_past (TransGen.single hp)

lemma Anticone.symm (h : Anticone parent a b) : Anticone parent b a := ⟨h.2, h.1⟩

lemma Anticone.ne (h : Anticone parent a b) : a ≠ b := by
  rintro rfl
  exact h.1 (InPast.refl a)

/-- A path along some of the parents leads into the past. -/
lemma InPast.of_path {r : α → α → Prop} {p : α} (hr : ∀ v u, r v u → parent v u)
    (h : ReflTransGen r x p) : InPast parent x p := by
  induction h with
  | refl => exact InPast.refl x
  | tail _ hstep ih => exact ih.trans (InPast.of_parent (hr _ _ hstep))

/-- Two parent relations that agree on a set that is closed under parents have the same past
there. -/
lemma inPast_congr {parent' : α → α → Prop} {s : α → Prop}
    (hagree : ∀ p b, s b → (parent p b ↔ parent' p b)) (hclosed : ∀ p b, s b → parent p b → s p)
    (hb : s b) : InPast parent a b ↔ InPast parent' a b := by
  have hmem : ∀ {x}, InPast parent x b → s x := by
    intro x h
    induction h using head_induction_on with
    | refl => exact hb
    | head hstep _ ih => exact hclosed _ _ ih hstep
  constructor
  · intro h
    induction h using head_induction_on with
    | refl => exact InPast.refl b
    | head hstep hpath ih =>
      exact head ((hagree _ _ (hmem hpath)).mp hstep) ih
  · intro h
    induction h using head_induction_on with
    | refl => exact InPast.refl b
    | head hstep _ ih => exact head ((hagree _ _ (hmem ih)).mpr hstep) ih

/-- The search outside of the past of `sp`, from parents that are not in that past, finds
exactly the past of the parents without the past of `sp`. -/
lemma exists_path_outside_iff {ps : List α} {sp : α}
    (hps : ∀ p ∈ ps, p ≠ sp → ¬InPast parent p sp) :
    (∃ p ∈ ps, p ≠ sp ∧ ReflTransGen (fun v u => parent v u ∧ ¬InPast parent v sp) x p) ↔
      (∃ p ∈ ps, InPast parent x p) ∧ ¬InPast parent x sp := by
  constructor
  · rintro ⟨p, hp, hne, hpath⟩
    refine ⟨⟨p, hp, InPast.of_path (fun _ _ h => h.1) hpath⟩, ?_⟩
    rcases cases_head hpath with rfl | ⟨y, hstep, -⟩
    · exact hps x hp hne
    · exact hstep.2
  · rintro ⟨⟨p, hp, hpath⟩, hx⟩
    refine ⟨p, hp, ?_, ?_⟩
    · rintro rfl
      exact hx hpath
    · -- no block on the path is in the past of `sp`, since `x` is in the past of each
      induction hpath using head_induction_on with
      | refl => exact refl
      | head hstep _ ih =>
        refine head ⟨hstep, hx⟩ (ih fun hsp => hx ?_)
        exact (InPast.of_parent hstep).trans hsp

/-! ## Anticones within a set -/

/-- The blocks of `s` in the anticone of `x`. -/
noncomputable def anticoneIn (parent : α → α → Prop) (s : Finset α) (x : α) : Finset α :=
  s.filter fun y => Anticone parent x y

/-- A new block outside of the anticone of `x` leaves it as it is. -/
lemma anticoneIn_insert_of_not [DecidableEq α] (h : ¬Anticone parent x c) :
    anticoneIn parent (insert c s) x = anticoneIn parent s x := by
  unfold anticoneIn
  rw [Finset.filter_insert, if_neg h]

lemma card_anticoneIn_insert [DecidableEq α] (hc : c ∉ s) (h : Anticone parent x c) :
    (anticoneIn parent (insert c s) x).card = (anticoneIn parent s x).card + 1 := by
  unfold anticoneIn
  rw [Finset.filter_insert, if_pos h, Finset.card_insert_of_notMem]
  exact fun hmem => hc (Finset.mem_of_mem_filter _ hmem)

lemma not_anticone_self (x : α) : ¬Anticone parent x x := fun h => h.1 (InPast.refl x)

/-- Adding `c` keeps `blues` a `k`-cluster: at most `k` of them are in the anticone of `c`, and none
of these has `k` blues in its own anticone already. -/
def Admits (parent : α → α → Prop) (k : ℕ) (blues : Finset α) (c : α) : Prop :=
  (anticoneIn parent blues c).card ≤ k ∧
    ∀ y ∈ anticoneIn parent blues c, (anticoneIn parent blues y).card < k

/-- The blocks of a list that join a `k`-cluster one after the other. -/
noncomputable def greedyCluster [DecidableEq α] (parent : α → α → Prop) (k : ℕ) :
    Finset α → List α → List α
  | _, [] => []
  | blues, c :: rest =>
    if Admits parent k blues c then c :: greedyCluster parent k (insert c blues) rest
    else greedyCluster parent k blues rest

/-- A finite set of blocks without cycles has one without a parent in the set. -/
lemma exists_forall_not_parent (hacyclic : ∀ a, ¬Past parent a a) (hs : s.Nonempty) :
    ∃ m ∈ s, ∀ a ∈ s, ¬parent a m := by
  let r : s → s → Prop := fun a b => Past parent a b
  have : IsTrans s r := ⟨fun _ _ _ => TransGen.trans⟩
  have : Std.Irrefl r := ⟨fun a => hacyclic a⟩
  obtain ⟨a₀, ha₀⟩ := hs
  obtain ⟨m, -, hmin⟩ := (Finite.wellFounded_of_trans_of_irrefl r).has_min Set.univ
    ⟨⟨a₀, ha₀⟩, trivial⟩
  exact ⟨m, m.2, fun a ha hparent => hmin ⟨a, ha⟩ trivial (.single hparent)⟩

end Dag
