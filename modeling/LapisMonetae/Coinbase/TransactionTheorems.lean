import LapisMonetae.Coinbase.Transaction
import Mathlib.Algebra.BigOperators.Group.Finset.Basic
import Mathlib.Algebra.Order.BigOperators.Group.List

/-!
# The coinbase transaction pays every block of the mergeset once

The outputs for the blue blocks are the rewards inside the DAA window that are not zero, in the
order of the mergeset, and the output for the red blocks is the sum of their shares.
-/

namespace LapisMonetae.Coinbase

open List Option Nat

open Ghostdag (GhostdagData)
open Tx (TransactionOutput)
open Virtual (BlockRewardData)

section

variable {rewards : List (Hash × BlockRewardData)} {nonDaa : List Hash}
variable {data : BlockRewardData} {isActive : Bool} {block : Hash} {reds : List Hash}

/-- The fees of a block. -/
def feesOf (rewards : List (Hash × BlockRewardData)) (block : Hash) : ℕ :=
  ((rewards.lookup block).map BlockRewardData.totalFees).getD 0

/-- The subsidy and the fees of a block. -/
def rewardOf (rewards : List (Hash × BlockRewardData)) (block : Hash) : ℕ :=
  ((rewards.lookup block).map fun data => data.subsidy.toNat + data.totalFees).getD 0

lemma feesOf_eq (h : rewards.lookup block = some data) :
    feesOf rewards block = data.totalFees := by
  rw [feesOf, h]
  rfl

lemma rewardOf_eq (h : rewards.lookup block = some data) :
    rewardOf rewards block = data.subsidy.toNat + data.totalFees := by
  rw [rewardOf, h]
  rfl

/-- The output for a blue block: its reward to its own script, unless it is outside the DAA window
or there is nothing to pay. -/
def blueOutput (rewards : List (Hash × BlockRewardData)) (nonDaa : List Hash)
    (blue : Hash) : Option TransactionOutput :=
  if blue ∈ nonDaa then none
  else (rewards.lookup blue).bind fun data =>
    if 0 < data.subsidy.toNat + data.totalFees then
      some ⟨data.subsidy.toNat + data.totalFees, data.scriptPublicKey⟩
    else none

/-- The shares of the red blocks. -/
def redTotal (rewards : List (Hash × BlockRewardData)) (nonDaa : List Hash)
    (isActive : Bool) (reds : List Hash) : ℕ :=
  ((reds.filter (· ∉ nonDaa)).map (rewardOf rewards)).sum +
    if isActive then ((reds.filter (· ∈ nonDaa)).map (feesOf rewards)).sum else 0

/-! ## Blue blocks -/

/-- The loop over the blue blocks needs the rewards inside the DAA window, each in range. -/
lemma blueOutputs_eq (blues : List Hash) : blueOutputs rewards nonDaa blues =
      if ∀ blue ∈ blues, blue ∉ nonDaa →
          (rewards.lookup blue).isSome ∧ rewardOf rewards blue ≤ u64Max then
        some (blues.filterMap (blueOutput rewards nonDaa))
      else none := by
  induction blues with
  | nil => rfl
  | cons blue blues ih =>
    rw [blueOutputs, ih]
    by_cases hdaa : blue ∈ nonDaa
    · have hnone : blueOutput rewards nonDaa blue = none := if_pos hdaa
      simp only [hdaa, if_true, forall_mem_cons, not_true, false_implies, true_and,
        filterMap_cons_none hnone]
    · cases hdata : rewards.lookup blue with
      | none =>
        have hfalse : ¬∀ b ∈ blue :: blues, b ∉ nonDaa →
            (rewards.lookup b).isSome ∧ rewardOf rewards b ≤ u64Max := by
          intro h
          have hsome := (h blue mem_cons_self hdaa).1
          rw [hdata] at hsome
          cases hsome
        rw [if_neg hdaa, if_neg hfalse]
        rfl
      | some data =>
        have hreward := rewardOf_eq hdata
        by_cases hrange : data.subsidy.toNat + data.totalFees ≤ u64Max
        · have houtput : blueOutput rewards nonDaa blue =
              if 0 < data.subsidy.toNat + data.totalFees then
                some ⟨data.subsidy.toNat + data.totalFees, data.scriptPublicKey⟩ else none := by
            rw [blueOutput, if_neg hdaa, hdata]
            rfl
          simp only [hdaa, if_false, checkedAdd, hrange, if_true, bind_eq_bind,
            bind_some, forall_mem_cons, not_false_eq_true, true_implies, hdata, hreward,
            isSome_some, and_self, true_and, filterMap_cons, houtput]
          split
          · split <;> rfl
          · rfl
        · simp [hdaa, checkedAdd, hrange, hreward]

/-- The blue outputs pay the rewards inside the DAA window. -/
lemma sum_blueOutput {blues : List Hash} :
    ((blues.filterMap (blueOutput rewards nonDaa)).map
        TransactionOutput.value).sum =
      ((blues.filter (· ∉ nonDaa)).map (rewardOf rewards)).sum := by
  induction blues with
  | nil => rfl
  | cons blue blues ih =>
    by_cases hdaa : blue ∈ nonDaa
    · have hnone : blueOutput rewards nonDaa blue = none := if_pos hdaa
      rw [filterMap_cons_none hnone, filter_cons_of_neg (by simpa using hdaa), ih]
    · rw [filter_cons_of_pos (by simpa using hdaa), map_cons, sum_cons, ← ih,
        filterMap_cons]
      cases hdata : rewards.lookup blue with
      | none => simp [blueOutput, rewardOf, hdaa, hdata]
      | some data =>
        have hreward := rewardOf_eq hdata
        rw [blueOutput, if_neg hdaa, hdata, bind_some, hreward]
        by_cases hpos : 0 < data.subsidy.toNat + data.totalFees
        · rw [if_pos hpos]
          rfl
        · rw [if_neg hpos]
          dsimp only
          omega

lemma blueOutput_value_pos {blue : Hash} {output : TransactionOutput}
    (h : blueOutput rewards nonDaa blue = some output) : 0 < output.value := by
  rw [blueOutput] at h
  split at h
  · cases h
  · obtain ⟨data, -, hdata⟩ := bind_eq_some_iff.mp h
    split at hdata
    · rename_i hpos
      cases hdata
      exact hpos
    · cases hdata

/-! ## Red blocks -/

/-- The share of a red block that the loop visits. -/
def redShare (rewards : List (Hash × BlockRewardData)) (nonDaa : List Hash)
    (isActive : Bool) (red : Hash) : Option ℕ :=
  (rewards.lookup red).bind fun data =>
    if isActive ∧ red ∈ nonDaa then some data.totalFees
    else checkedAdd data.subsidy.toNat data.totalFees

/-- The red blocks that the loop visits: before the activation, those inside the DAA window. -/
def visitedReds (nonDaa : List Hash) (isActive : Bool) (reds : List Hash) : List Hash :=
  if isActive then reds else reds.filter (· ∉ nonDaa)

/-- Both loops add up the shares of the blocks they visit. -/
lemma redReward_eq (isActive : Bool) (reds : List Hash) :
    redReward rewards nonDaa isActive reds =
      (visitedReds nonDaa isActive reds).foldlM (fun total red =>
        (redShare rewards nonDaa isActive red).bind (checkedAdd total)) 0 := by
  cases isActive with
  | true =>
    refine congrArg (fun step => reds.foldlM step 0) (funext₂ fun total red => ?_)
    rw [redShare, bind_assoc]
    refine congrArg (Option.bind _) (funext fun data => ?_)
    by_cases hdaa : red ∈ nonDaa
    · simp [hdaa]
    · simp [hdaa]
  | false =>
    refine congrArg (fun step => (reds.filter (· ∉ nonDaa)).foldlM step 0)
      (funext₂ fun total red => ?_)
    rw [redShare, bind_assoc]
    refine congrArg (Option.bind _) (funext fun data => ?_)
    simp

lemma getD_redShare {red : Hash}
    (h : (redShare rewards nonDaa isActive red).isSome) :
    (redShare rewards nonDaa isActive red).getD 0 =
      if isActive ∧ red ∈ nonDaa then feesOf rewards red
      else rewardOf rewards red := by
  cases hdata : rewards.lookup red with
  | none =>
    rw [redShare, hdata] at h
    cases h
  | some data =>
    rw [redShare, hdata, bind_some] at h ⊢
    rw [feesOf_eq hdata, rewardOf_eq hdata]
    split at h
    · rename_i hdaa
      rw [if_pos hdaa, if_pos hdaa]
      rfl
    · rename_i hdaa
      rw [if_neg hdaa, if_neg hdaa]
      rw [checkedAdd] at h ⊢
      split at h
      · rename_i hrange
        rw [if_pos hrange]
        rfl
      · cases h

/-- The shares of the visited blocks, by their place. -/
lemma sum_visitedReds (isActive : Bool) (reds : List Hash) :
    ((visitedReds nonDaa isActive reds).map fun red =>
      if isActive ∧ red ∈ nonDaa then feesOf rewards red
      else rewardOf rewards red).sum =
      redTotal rewards nonDaa isActive reds := by
  cases isActive with
  | false =>
    simp [visitedReds, redTotal]
  | true =>
    simp only [visitedReds, redTotal, if_true, true_and]
    induction reds with
    | nil => rfl
    | cons red reds ih =>
      by_cases hdaa : red ∈ nonDaa <;> simp [hdaa, ih] <;> omega

/-! ## The transaction -/

/-- What is paid to a mergeset: the rewards inside the DAA window, and after the activation the fees
of the red blocks outside it. A sum over a set counts every block once. -/
def mergesetPayment (rewards : List (Hash × BlockRewardData)) (nonDaa : List Hash)
    (isActive : Bool) (ghostdagData : GhostdagData) : ℕ :=
  (∑ block ∈ ((ghostdagData.mergesetBlues ++ ghostdagData.mergesetReds).toFinset.filter
      (· ∉ nonDaa)), rewardOf rewards block) +
    if isActive then
      ∑ block ∈ ghostdagData.mergesetReds.toFinset.filter (· ∈ nonDaa),
        feesOf rewards block
    else 0

lemma sum_toFinset_filter {blocks : List Hash} (hnodup : blocks.Nodup) (p : Hash → Prop)
    [DecidablePred p] (f : Hash → ℕ) :
    ∑ block ∈ blocks.toFinset.filter p, f block = ((blocks.filter (p ·)).map f).sum := by
  rw [← sum_toFinset f (hnodup.filter _), toFinset_filter]
  simp only [decide_eq_true_eq]

/-- The payment is the sum of the blue rewards and the red shares. -/
lemma mergesetPayment_eq {ghostdagData : GhostdagData}
    (hmergeset : (ghostdagData.mergesetBlues ++ ghostdagData.mergesetReds).Nodup) :
    mergesetPayment rewards nonDaa isActive ghostdagData =
      ((ghostdagData.mergesetBlues.filter (· ∉ nonDaa)).map
          (rewardOf rewards)).sum +
        redTotal rewards nonDaa isActive ghostdagData.mergesetReds := by
  have hreds : ghostdagData.mergesetReds.Nodup := (nodup_append.mp hmergeset).2.1
  rw [mergesetPayment, redTotal, sum_toFinset_filter hmergeset, sum_toFinset_filter hreds,
    filter_append, map_append, sum_append_nat, add_assoc]

lemma redReward_eq_some {red : ℕ}
    (h : redReward rewards nonDaa isActive reds = some red) :
    red = redTotal rewards nonDaa isActive reds := by
  rw [redReward_eq, foldlM_checkedAdd _ _ _ (zero_le _)] at h
  split at h
  · rename_i hshares
    cases h
    rw [← sum_visitedReds, zero_add]
    exact congrArg List.sum (map_congr_left fun red hred => getD_redShare (hshares.1 red hred))
  · cases h

lemma feesOf_le_rewardOf (block : Hash) :
    feesOf rewards block ≤ rewardOf rewards block := by
  rw [feesOf, rewardOf]
  cases rewards.lookup block with
  | none => exact le_rfl
  | some data => exact le_add_left _ _

/-- The loop over the red blocks returns where every block has a reward and their sum is in
range. -/
lemma redReward_isSome (hrewards : ∀ red ∈ reds, (rewards.lookup red).isSome)
    (hrange : (reds.map (rewardOf rewards)).sum ≤ u64Max) :
    (redReward rewards nonDaa isActive reds).isSome := by
  have hsublist : (visitedReds nonDaa isActive reds).Sublist reds := by
    rw [visitedReds]
    split
    · exact List.Sublist.refl reds
    · exact filter_sublist
  have hshares : ∀ red ∈ visitedReds nonDaa isActive reds,
      (redShare rewards nonDaa isActive red).isSome := by
    intro red hred
    have hmem := hsublist.subset hred
    obtain ⟨data, hdata⟩ := isSome_iff_exists.mp (hrewards red hmem)
    have hle : rewardOf rewards red ≤ (reds.map (rewardOf rewards)).sum :=
      single_le_sum (fun _ _ => zero_le _) _ (mem_map_of_mem hmem)
    rw [rewardOf_eq hdata] at hle
    rw [redShare, hdata, bind_some]
    split
    · rfl
    · rw [checkedAdd, if_pos (hle.trans hrange)]
      rfl
  have hsum : ((visitedReds nonDaa isActive reds).map fun red =>
      (redShare rewards nonDaa isActive red).getD 0).sum ≤
        (reds.map (rewardOf rewards)).sum := by
    calc ((visitedReds nonDaa isActive reds).map fun red =>
          (redShare rewards nonDaa isActive red).getD 0).sum
        ≤ ((visitedReds nonDaa isActive reds).map (rewardOf rewards)).sum := by
          refine sum_le_sum fun red hred => ?_
          rw [getD_redShare (hshares red hred)]
          split
          · exact feesOf_le_rewardOf red
          · exact le_rfl
      _ ≤ _ := (hsublist.map _).sum_le_sum fun _ _ => zero_le _
  rw [redReward_eq, foldlM_checkedAdd _ _ _ (zero_le _), zero_add,
    if_pos ⟨hshares, hsum.trans hrange⟩]
  rfl

/-- The coinbase transaction pays to each blue block of the DAA window its reward at its own script,
in the order of the mergeset, and to the merging block one output with the shares of the red blocks;
in total, what the mergeset has earned. No output is zero. The transaction is built where every
block of the mergeset has a reward, the rewards are in range, and the script of the miner is not too
long. -/
theorem expectedCoinbaseTransaction_pays (manager : CoinbaseManager) (limits : PayloadLimits)
    (daaScore : ℕ) (minerData : MinerData) (ghostdagData : GhostdagData)
    (rewards : List (Hash × BlockRewardData)) (nonDaa : List Hash)
    (hmergeset : (ghostdagData.mergesetBlues ++ ghostdagData.mergesetReds).Nodup) :
    (∀ template, expectedCoinbaseTransaction rewards nonDaa manager limits daaScore
        minerData ghostdagData = some (.ok template) →
      (template.outputs.map TransactionOutput.value).sum =
          mergesetPayment rewards nonDaa
            (manager.bps.activation.isActive daaScore) ghostdagData ∧
        (∃ red, red = redTotal rewards nonDaa
            (manager.bps.activation.isActive daaScore) ghostdagData.mergesetReds ∧
          template.outputs =
            ghostdagData.mergesetBlues.filterMap (blueOutput rewards nonDaa) ++
              if 0 < red then [⟨red, minerData.scriptPublicKey⟩] else []) ∧
        ∀ output ∈ template.outputs, 0 < output.value) ∧
    ((∀ block ∈ ghostdagData.mergesetBlues ++ ghostdagData.mergesetReds,
        (rewards.lookup block).isSome) →
      ((ghostdagData.mergesetBlues ++ ghostdagData.mergesetReds).map
        (rewardOf rewards)).sum ≤ u64Max →
      minerData.scriptPublicKey.script.length ≤ limits.coinbasePayloadScriptPublicKeyMaxLen.toNat →
      ∃ template, expectedCoinbaseTransaction rewards nonDaa manager limits daaScore
        minerData ghostdagData = some (.ok template)) := by
  refine ⟨fun template h => ?_, fun hrewards hrange hscript => ?_⟩
  · obtain ⟨outputs, hblues, h⟩ := bind_eq_some_iff.mp h
    obtain ⟨red, hred, h⟩ := bind_eq_some_iff.mp h
    have hred := redReward_eq_some hred
    have houtputs : outputs = ghostdagData.mergesetBlues.filterMap
        (blueOutput rewards nonDaa) := by
      rw [blueOutputs_eq] at hblues
      split at hblues
      · cases hblues
        rfl
      · cases hblues
    have htemplate : template.outputs =
        outputs ++ if 0 < red then [⟨red, minerData.scriptPublicKey⟩] else [] := by
      have hok := some.inj h
      cases hpayload : limits.serializeCoinbasePayload ⟨UInt64.ofNat ghostdagData.blueScore,
          UInt64.ofNat (manager.calcBlockSubsidy daaScore), minerData⟩ with
      | error e =>
        rw [hpayload] at hok
        cases hok
      | ok payload =>
        rw [hpayload] at hok
        cases hok
        dsimp only
        split
        · rfl
        · rw [append_nil]
    refine ⟨?_, ⟨red, hred, houtputs ▸ htemplate⟩, ?_⟩
    · have hlast : ((if 0 < red then [⟨red, minerData.scriptPublicKey⟩] else [] :
          List TransactionOutput).map TransactionOutput.value).sum = red := by
        split
        · exact add_zero red
        · exact (Nat.eq_zero_of_not_pos ‹_›).symm
      rw [htemplate, map_append, sum_append_nat, hlast, houtputs, sum_blueOutput, hred,
        mergesetPayment_eq hmergeset]
    · intro output houtput
      rw [htemplate, houtputs, mem_append] at houtput
      rcases houtput with hblue | hmerging
      · obtain ⟨blue, -, hblue⟩ := mem_filterMap.mp hblue
        exact blueOutput_value_pos hblue
      · split at hmerging
        · rename_i hpos
          rw [mem_singleton.mp hmerging]
          exact hpos
        · cases hmerging
  · rw [map_append, sum_append_nat] at hrange
    have hblues : ∀ blue ∈ ghostdagData.mergesetBlues, blue ∉ nonDaa →
        (rewards.lookup blue).isSome ∧ rewardOf rewards blue ≤ u64Max := by
      intro blue hblue _
      have hle : rewardOf rewards blue ≤
          (ghostdagData.mergesetBlues.map (rewardOf rewards)).sum :=
        single_le_sum (fun _ _ => zero_le _) _ (mem_map_of_mem hblue)
      exact ⟨hrewards blue (mem_append_left _ hblue), by omega⟩
    have hreds : (redReward rewards nonDaa
        (manager.bps.activation.isActive daaScore) ghostdagData.mergesetReds).isSome :=
      redReward_isSome (fun red hred => hrewards red (mem_append_right _ hred)) (by omega)
    obtain ⟨red, hred⟩ := isSome_iff_exists.mp hreds
    rw [expectedCoinbaseTransaction, blueOutputs_eq, if_pos hblues, hred]
    simp only [some_bind_eq, PayloadLimits.serializeCoinbasePayload]
    rw [if_neg (not_lt.mpr hscript)]
    exact ⟨_, rfl⟩

/-- A mergeset of a blue block, a red block and a red block outside the DAA window. -/
theorem expectedCoinbaseTransaction_pays_three : ∃ template, expectedCoinbaseTransaction
        [(1, ⟨50, 3, ⟨0, [1]⟩⟩), (2, ⟨50, 5, ⟨0, [2]⟩⟩), (3, ⟨50, 7, ⟨0, [3]⟩⟩)] [3]
        (mainnetManager .always) mainnetPayloadLimits 100 ⟨⟨0, [4]⟩, []⟩ ⟨2, 9, 1, [1], [2, 3], ∅⟩ =
          some (.ok template) ∧
      (template.outputs.map TransactionOutput.value).sum = 53 + 55 + 7 := by
  obtain ⟨hpays, hreturns⟩ := expectedCoinbaseTransaction_pays (mainnetManager .always)
    mainnetPayloadLimits 100 ⟨⟨0, [4]⟩, []⟩ ⟨2, 9, 1, [1], [2, 3], ∅⟩
    [(1, ⟨50, 3, ⟨0, [1]⟩⟩), (2, ⟨50, 5, ⟨0, [2]⟩⟩), (3, ⟨50, 7, ⟨0, [3]⟩⟩)] [3] (by decide)
  obtain ⟨template, htemplate⟩ := hreturns (by decide) (by decide) (by decide)
  exact ⟨template, htemplate, (hpays template htemplate).1.trans (by decide)⟩

end

end LapisMonetae.Coinbase
