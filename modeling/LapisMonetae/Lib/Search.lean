import Mathlib.Data.Finset.Card
import Mathlib.Logic.Relation

/-!
# Breadth-first search

The search for everything that a node leads to, over lists of successors. A fuel bounds the number
of nodes that are expanded; the number of nodes that can be found is enough.
-/

namespace Search

open Relation List

variable {α : Type} {next : α → List α} {start : α}

section
variable [DecidableEq α]

/-- A successor is met: a node that was not found before is queued. -/
def visit (acc : List α × List α) (a : α) : List α × List α :=
  if a ∈ acc.2 then acc else (acc.1 ++ [a], acc.2 ++ [a])

/-- The loop of the search, with the queue and the nodes found so far. -/
def search (next : α → List α) : ℕ → List α → List α → List α
  | 0, _, found => found
  | _ + 1, [], found => found
  | fuel + 1, a :: queue, found =>
    let acc := (next a).foldl visit (queue, found)
    search next fuel acc.1 acc.2

end

/-- The edges of the graph. -/
def Edge (next : α → List α) (a b : α) : Prop := b ∈ next a

/-- The invariant of the loop: what was found is reached from `start`, and a node that is no longer
queued has all its successors found. -/
structure Searching (next : α → List α) (start : α) (queue found : List α) : Prop where
  sound : ∀ x ∈ found, TransGen (Edge next) start x
  queued : ∀ x ∈ queue, x = start ∨ x ∈ found
  closed : ∀ x, x = start ∨ x ∈ found → x ∈ queue ∨ ∀ y ∈ next x, y ∈ found

/-- The start of a search: only the node itself is queued. -/
lemma searching_start (next : α → List α) (start : α) : Searching next start [start] [] where
  sound := fun _ h => nomatch h
  queued := fun x hx => .inl (mem_singleton.mp hx)
  closed := fun x hx => by
    rcases hx with rfl | hx
    · exact .inl (mem_singleton.mpr rfl)
    · cases hx

/-- A search that has emptied its queue has found everything. -/
lemma Searching.mem_iff {found : List α}
    (h : Searching next start [] found) (x : α) : x ∈ found ↔ TransGen (Edge next) start x := by
  have hclosed : ∀ a, a = start ∨ a ∈ found → ∀ b ∈ next a, b ∈ found := fun a ha =>
    (h.closed a ha).resolve_left fun hmem => nomatch hmem
  constructor
  · exact h.sound x
  · intro hx
    induction hx with
    | single hedge => exact hclosed start (.inl rfl) _ hedge
    | tail _ hedge ih => exact hclosed _ (.inr ih) _ hedge

section
variable [DecidableEq α] {nodes : Finset α}

/-- What a round does to the queue and to the nodes found when it meets the successors `l`. -/
structure Visited (l queue found queue' found' : List α) : Prop where
  mem_found : ∀ x, x ∈ found' ↔ x ∈ found ∨ x ∈ l
  mem_queue : ∀ x, x ∈ queue' ↔ x ∈ queue ∨ (x ∈ l ∧ x ∉ found)

lemma visited_foldl (l queue found : List α) :
    Visited l queue found (l.foldl visit (queue, found)).1 (l.foldl visit (queue, found)).2 := by
  induction l generalizing queue found with
  | nil => exact ⟨fun x => by simp, fun x => by simp⟩
  | cons a l ih =>
    rw [foldl_cons, visit]
    split
    · next ha =>
      obtain ⟨hfound, hqueue⟩ := ih queue found
      constructor
      · intro x
        rw [hfound, mem_cons]
        grind
      · intro x
        rw [hqueue, mem_cons]
        grind
    · next ha =>
      obtain ⟨hfound, hqueue⟩ := ih (queue ++ [a]) (found ++ [a])
      constructor
      · intro x
        rw [hfound, mem_append, mem_singleton, mem_cons]
        tauto
      · intro x
        rw [hqueue, mem_append, mem_append, mem_singleton, mem_cons]
        grind

/-- Every node that is queued was not found before, so the queue and the nodes that are left to
find do not grow together. -/
lemma card_foldl_visit_le {l : List α} (hl : ∀ x ∈ l, x ∈ nodes)
    (queue found : List α) : (l.foldl visit (queue, found)).1.length +
        (nodes \ (l.foldl visit (queue, found)).2.toFinset).card ≤
      queue.length + (nodes \ found.toFinset).card := by
  induction l generalizing queue found with
  | nil => exact Nat.le_refl _
  | cons a l ih =>
    obtain ⟨ha, hl⟩ := forall_mem_cons.mp hl
    rw [foldl_cons, visit]
    split
    · exact ih hl queue found
    · next hfound =>
      dsimp only
      have hsdiff : nodes \ (found ++ [a]).toFinset = (nodes \ found.toFinset).erase a := by
        ext x
        simp only [Finset.mem_sdiff, mem_toFinset, mem_append, mem_singleton, Finset.mem_erase]
        tauto
      have hmem : a ∈ nodes \ found.toFinset := by simp [ha, hfound]
      have hcard := Finset.card_erase_add_one hmem
      have hrest := ih hl (queue ++ [a]) (found ++ [a])
      rw [hsdiff, length_append, length_singleton] at hrest
      omega

lemma Searching.step {start a : α} {queue found queue' found' : List α}
    (h : Searching next start (a :: queue) found)
    (hv : Visited (next a) queue found queue' found') : Searching next start queue' found' := by
  have ha : a = start ∨ a ∈ found := h.queued a mem_cons_self
  have hreach : ∀ x ∈ next a, TransGen (Edge next) start x := by
    intro x hx
    rcases ha with rfl | ha
    · exact .single hx
    · exact .tail (h.sound a ha) hx
  constructor
  · intro x hx
    rcases (hv.mem_found x).mp hx with hx | hx
    · exact h.sound x hx
    · exact hreach x hx
  · intro x hx
    rcases (hv.mem_queue x).mp hx with hx | ⟨hx, -⟩
    · rcases h.queued x (mem_cons_of_mem _ hx) with hstart | hfound
      · exact .inl hstart
      · exact .inr ((hv.mem_found x).mpr (.inl hfound))
    · exact .inr ((hv.mem_found x).mpr (.inr hx))
  · intro x hx
    by_cases hold : x = start ∨ x ∈ found
    · by_cases hxa : x = a
      · -- the node that was expanded
        subst hxa
        exact .inr fun y hy => (hv.mem_found y).mpr (.inr hy)
      · rcases h.closed x hold with hq | hsucc
        · have hq : x ∈ queue := (mem_cons.mp hq).resolve_left hxa
          exact .inl ((hv.mem_queue x).mpr (.inl hq))
        · exact .inr fun y hy => (hv.mem_found y).mpr (.inl (hsucc y hy))
    · -- a node that was found in this round is queued
      push Not at hold
      have hnew := ((hv.mem_found x).mp (hx.resolve_left hold.1)).resolve_left hold.2
      exact .inl ((hv.mem_queue x).mpr (.inr ⟨hnew, hold.2⟩))

/-- The search returns the nodes that `start` leads to by at least one edge. -/
lemma mem_search_iff (hnext : ∀ a, ∀ b ∈ next a, b ∈ nodes) {fuel : ℕ} {queue found : List α}
    (h : Searching next start queue found)
    (hfuel : queue.length + (nodes \ found.toFinset).card < fuel) (x : α) :
    x ∈ search next fuel queue found ↔ TransGen (Edge next) start x := by
  induction fuel generalizing queue found with
  | zero => cases hfuel
  | succ fuel ih =>
    cases queue with
    | nil => exact h.mem_iff x
    | cons a queue =>
      rw [search]
      apply ih (h.step (visited_foldl (next a) queue found))
      have hle := card_foldl_visit_le (hnext a) queue found
      rw [length_cons] at hfuel
      omega

end

/-! ## Nodes that are taken away -/

/-- A path to a node outside of a set that is closed under successors stays outside of it. -/
lemma transGen_avoids {edge : α → α → Prop} {removed : α → Prop}
    (hclosed : ∀ a b, removed a → edge a b → removed b) {a b : α} (hb : ¬removed b)
    (h : TransGen edge a b) : TransGen (fun x y => edge x y ∧ ¬removed x ∧ ¬removed y) a b := by
  have hpath : ∀ {x}, TransGen edge x b → ¬removed x := by
    intro x hx
    induction hx using TransGen.head_induction_on with
    | single hedge => exact fun hr => hb (hclosed _ _ hr hedge)
    | head hedge _ ih => exact fun hr => ih (hclosed _ _ hr hedge)
  induction h using TransGen.head_induction_on with
  | single hedge => exact .single ⟨hedge, hpath (.single hedge), hb⟩
  | head hedge hrest ih => exact .head ⟨hedge, hpath (.head hedge hrest), hpath hrest⟩ ih

end Search
