import LapisMonetae.Ghostdag.ChainTheorems
import LapisMonetae.Ghostdag.GreedyTheorems
import LapisMonetae.Pruning.Manager

/-!
# Growth of the blue score

`ghostdag` merges at most `k` blues beside the selected parent. So the blue score grows as slowly as
the sampled pruning point computation needs, which stops a walk after `⌈P/F⌉` hops.
-/

namespace LapisMonetae.Pruning

open Ghostdag GhostdagManager

variable {m : GhostdagManager} {blocks : Finset Hash} {p b : Hash}

/-- The blue score grows along the selected chain, by at most `k + 1`. -/
lemma blueScore_step (inv : m.StoreInv blocks) (hp : p ∈ blocks) (h : m.SelectedParent p b) :
    m.blueScore p < m.blueScore b ∧ m.blueScore b ≤ m.blueScore p + (m.kOf p + 1) := by
  have tree := inv.mergedDag.chainTree
  refine ⟨tree.blueScore_lt hp h, ?_⟩
  have hb := tree.child_mem p b h
  have hne : b ≠ m.genesisHash := fun heq => tree.genesis_root p hp (heq ▸ h)
  obtain ⟨-, d, hd, rfl⟩ := h
  obtain ⟨ps, -, hvalid, hcol⟩ := inv.colored_of_getData hb hne hd
  obtain ⟨merged, hordered, hcoloring⟩ := hcol.coloring
  have htail := hcoloring.length_tail_le (hordered.mergeable inv hvalid.mem_blocks hp)
    fun x hx => hordered.anticone hvalid hcol.selectedParent_mem hx
  have hroom := hcoloring.le_k d.selectedParent
    (BlueOf.here (by rw [hcoloring.blues_eq]; exact List.mem_cons_self))
  have hscore : m.blueScore b = d.blueScore := blueScore_of_getData hd
  rw [hscore, hcol.blueScore_eq, hcoloring.blues_eq, List.length_cons]
  omega

/-- On every DAG that `ghostdag` builds with `k` at most `K`, where `0 < P mod F < F - K` as the
code's parameter test checks, the blue score grows along the selected chain by at least one and at
most `step ≤ ⌈P/F⌉·F - P + 1`. -/
theorem blueScore_growth (h : Built m blocks) {pruningDepth finalityDepth ghostdagK : ℕ}
    (hk : ∀ b ∈ blocks, m.kOf b ≤ ghostdagK) (hpos : 0 < pruningDepth % finalityDepth)
    (hmod : pruningDepth % finalityDepth + ghostdagK < finalityDepth) :
    ∃ step, step + pruningDepth ≤ samplesSteps pruningDepth finalityDepth * finalityDepth + 1 ∧
      ∀ p ∈ blocks, ∀ b, m.SelectedParent p b →
        m.blueScore p < m.blueScore b ∧ m.blueScore b ≤ m.blueScore p + step := by
  refine ⟨ghostdagK + 1, ?_, fun p hp b hb => ?_⟩
  · have hF : 0 < finalityDepth := by omega
    have hdiv := Nat.div_add_mod pruningDepth finalityDepth
    have hsteps : samplesSteps pruningDepth finalityDepth = pruningDepth / finalityDepth + 1 := by
      unfold samplesSteps
      rw [Nat.div_eq_iff hF, Nat.add_mul, Nat.one_mul, Nat.mul_comm]
      omega
    rw [hsteps, Nat.add_mul, Nat.one_mul, Nat.mul_comm]
    omega
  · obtain ⟨hlt, hle⟩ := blueScore_step h.storeInv hp hb
    exact ⟨hlt, by have := hk p hp; omega⟩

theorem blueScore_growth_diamond : ∃ step, step + 15 ≤ samplesSteps 15 10 * 10 + 1 ∧
    ∀ p ∈ ({4, 3, 2, 1} : Finset Hash), ∀ b, diamond.SelectedParent p b → diamond.blueScore p <
      diamond.blueScore b ∧ diamond.blueScore b ≤ diamond.blueScore p + step :=
  blueScore_growth built_diamond (by decide +kernel : ∀ b ∈ ({4, 3, 2, 1} : Finset Hash),
    diamond.kOf b ≤ 1) (by decide) (by decide)

end LapisMonetae.Pruning
