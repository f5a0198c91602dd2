import LapisMonetae.Script.Engine
import Mathlib.Data.List.Forall2

/-!
# Multisig

A multisig takes the keys one after the other for the next signature. No other choice does better:
it succeeds exactly when the signatures can be assigned to keys in the order of the keys.
-/

namespace LapisMonetae.Script

open Program List

/-! ## Assignments -/

section
variable {α β : Type} {R : α → β → Prop} {a : α} {b : β} {as : List α} {bs : List β}

lemma length_le_of_sublistForall₂ (h : SublistForall₂ R as bs) : as.length ≤ bs.length := by
  obtain ⟨l, hforall, hsub⟩ := sublistForall₂_iff.mp h
  exact hforall.length_eq ▸ hsub.length_le

lemma SublistForall₂.of_cons (h : SublistForall₂ R (a :: as) bs) : SublistForall₂ R as bs := by
  obtain ⟨l, hforall, hsub⟩ := sublistForall₂_iff.mp h
  cases hforall with
  | cons _ hrest => exact sublistForall₂_iff.mpr ⟨_, hrest, sublist_of_cons_sublist hsub⟩

/-- The first key may be given to the first signature if it is valid for it. -/
lemma sublistForall₂_cons_iff (h : R a b) :
    SublistForall₂ R (a :: as) (b :: bs) ↔ SublistForall₂ R as bs := by
  constructor
  · rintro (_ | ⟨-, hrest⟩ | hrest)
    · exact hrest
    · exact SublistForall₂.of_cons hrest
  · exact .cons h

lemma sublistForall₂_cons_iff_of_not (h : ¬R a b) :
    SublistForall₂ R (a :: as) (b :: bs) ↔ SublistForall₂ R (a :: as) bs := by
  constructor
  · rintro (_ | ⟨hr, -⟩ | hrest)
    · exact absurd hr h
    · exact hrest
  · exact .cons_right

end

/-! ## The loops -/

section
variable {valid : List UInt8 → List UInt8 → Bool} {states : ℕ → TxScriptEngine} {n : ℕ}

/-- The signatures are assigned to keys that they are valid for, in the order of the keys. -/
abbrev Assigned (valid : List UInt8 → List UInt8 → Bool) : List (List UInt8) → List (List UInt8) →
    Prop :=
  SublistForall₂ fun sig key => valid sig key

lemma multisigKeyLoop_outcome {check : List UInt8 → EngineM Bool} {sig : List UInt8}
    (sigs : List (List UInt8)) {keys : List (List UInt8)} (hcheck : ∀ key ∈ keys, ∀ m < n,
      (check key).outcome (states m) = some (.ok (valid sig key), states (m + 1)))
    {m : ℕ} (hm : m + keys.length = n) : ∃ m' ≤ n,
      ((multisigKeyLoop check (sigs.length + 1) keys).outcome (states m) =
          some (.ok none, states m') ∧ ¬Assigned valid (sig :: sigs) keys) ∨
      ∃ keys' ⊆ keys, (multisigKeyLoop check (sigs.length + 1) keys).outcome (states m) =
          some (.ok (some keys'), states m') ∧ m' + keys'.length = n ∧
        (Assigned valid (sig :: sigs) keys ↔ Assigned valid sigs keys') := by
  induction keys generalizing m with
  | nil =>
    exact ⟨m, by omega, .inl ⟨rfl, fun h => absurd (length_le_of_sublistForall₂ h) (by simp)⟩⟩
  | cons key keys ih =>
    rw [length_cons] at hm
    rw [multisigKeyLoop]
    split
    · next hfew =>
      refine ⟨m, by omega, .inl ⟨rfl, fun h => ?_⟩⟩
      have hle := length_le_of_sublistForall₂ h
      rw [length_cons, length_cons] at hle
      omega
    · rw [outcome_bind_ok (hcheck key mem_cons_self m (by omega))]
      cases hvalid : valid sig key with
      | true =>
        exact ⟨m + 1, by omega, .inr ⟨keys, subset_cons_self _ _, rfl, by omega,
          sublistForall₂_cons_iff hvalid⟩⟩
      | false =>
        simp only [Assigned, sublistForall₂_cons_iff_of_not (R := fun s k => valid s k = true)
          (Bool.eq_false_iff.mp hvalid)]
        obtain ⟨m', hm', h | ⟨keys', hsub, h⟩⟩ :=
          ih (fun k hk => hcheck k (mem_cons_of_mem _ hk)) (m := m + 1) (by omega)
        · exact ⟨m', hm', .inl h⟩
        · exact ⟨m', hm', .inr ⟨keys', subset_cons_of_subset _ hsub, h⟩⟩

/-- The checks of a signature return whether it is valid for the key, without an error. `states m`
is the engine after `m` of at most `n` checks. -/
def CheckedBy (check : SigHashType → List UInt8 → List UInt8 → EngineM Bool)
    (valid : List UInt8 → List UInt8 → Bool) (states : ℕ → TxScriptEngine) (n : ℕ)
    (keys : List (List UInt8)) (sig : List UInt8) : Prop :=
  ∃ body typ hashType, sig = body ++ [typ] ∧ SigHashType.fromU8 typ = .ok hashType ∧
    ∀ key ∈ keys, ∀ m < n,
      (check hashType key body).outcome (states m) = some (.ok (valid sig key), states (m + 1))

variable {check : SigHashType → List UInt8 → List UInt8 → EngineM Bool}

lemma multisigLoop_outcome {sigs keys : List (List UInt8)}
    (hcheck : ∀ sig ∈ sigs, CheckedBy check valid states n keys sig) {m : ℕ}
    (hm : m + keys.length = n) (sigIdx : ℕ) : ∃ m' ≤ n, ∃ failed,
      (multisigLoop check (sigIdx + sigs.length) sigIdx sigs keys).outcome (states m) =
        some (.ok failed, states m') ∧ (failed = false ↔ Assigned valid sigs keys) := by
  induction sigs generalizing sigIdx keys m with
  | nil => exact ⟨m, by omega, false, rfl, fun _ => .nil, fun _ => rfl⟩
  | cons sig sigs ih =>
    obtain ⟨body, typ, hashType, hsig, htyp, hkeys⟩ := hcheck sig mem_cons_self
    have hleft : sigIdx + (sig :: sigs).length - sigIdx = sigs.length + 1 := by
      rw [length_cons]
      omega
    rw [multisigLoop, hleft]
    have hrev : sig.reverse = typ :: body.reverse := by simp [hsig]
    rw [hrev]
    dsimp only
    rw [reverse_reverse, htyp, outcome_bind_ok (outcome_orFail _ _)]
    obtain ⟨m', hm', ⟨hloop, hnot⟩ | ⟨keys', hsub, hloop, hleft', hiff⟩⟩ :=
      multisigKeyLoop_outcome sigs hkeys hm
    · rw [outcome_bind_ok hloop]
      exact ⟨m', hm', true, rfl, (fun h => absurd h (by decide)), fun h => absurd h hnot⟩
    · rw [outcome_bind_ok hloop, hiff, show sigIdx + (sig :: sigs).length =
        sigIdx + 1 + sigs.length by rw [length_cons]; omega]
      apply ih _ hleft'
      intro s hs
      obtain ⟨b, t, ht, h₁, h₂, h⟩ := hcheck s (mem_cons_of_mem _ hs)
      exact ⟨b, t, ht, h₁, h₂, fun k hk => h k (hsub hk)⟩

/-! ## The opcode -/

/-- The opcode reads the keys and the signatures from the stack and then checks, from `start`. -/
def MultisigReads (vm : TxScriptEngine) (pubKeys signatures : List (List UInt8))
    (start : TxScriptEngine) : Prop :=
  ∃ vm₁ vm₂ vm₃, popNumKeys.outcome vm = some (.ok pubKeys.length, vm₁) ∧
    (onDstack (popRaw pubKeys.length)).outcome vm₁ = some (.ok pubKeys, vm₂) ∧
    (popNumSigs pubKeys.length).outcome vm₂ = some (.ok signatures.length, vm₃) ∧
    (onDstack (popRaw signatures.length)).outcome vm₃ = some (.ok signatures, start)

/-- A multisig without encoding errors pushes true if the signatures can be assigned to keys in the
order of the keys, and fails otherwise. It makes at most as many checks as there are keys. -/
theorem opCheckMultisig_outcome {vm : TxScriptEngine} {pubKeys signatures : List (List UInt8)}
    (hreads : MultisigReads vm pubKeys signatures (states 0))
    (hcheck : ∀ sig ∈ signatures, CheckedBy check valid states pubKeys.length pubKeys sig) :
    ∃ m ≤ pubKeys.length,
      (Assigned valid signatures pubKeys → (opCheckMultisig check).outcome vm =
        some (.ok (), { states m with dstack := serializeBool true :: (states m).dstack })) ∧
      (¬Assigned valid signatures pubKeys →
        (opCheckMultisig check).outcome vm = some (.error .nullFail, states m)) := by
  obtain ⟨vm₁, vm₂, vm₃, hnumKeys, hkeys, hnumSigs, hsigs⟩ := hreads
  obtain ⟨m, hm, failed, hloop, hfailed⟩ := multisigLoop_outcome hcheck (m := 0) (by omega) 0
  rw [Nat.zero_add] at hloop
  have hresult : (opCheckMultisig check).outcome vm =
      (pushMultisigResult signatures failed).outcome (states m) := by
    rw [opCheckMultisig, outcome_bind_ok hnumKeys, checkMultisigKeys, outcome_bind_ok hkeys,
      outcome_bind_ok hnumSigs, outcome_bind_ok hsigs, outcome_bind_ok hloop]
  refine ⟨m, hm, fun h => ?_, fun h => ?_⟩
  · rw [hresult, hfailed.mpr h]
    rfl
  · -- a failed multisig has a signature, and none is empty
    have hnonempty : signatures.any fun sig => !sig.isEmpty := by
      cases signatures with
      | nil => exact absurd .nil h
      | cons sig sigs =>
        obtain ⟨body, typ, -, rfl, -⟩ := hcheck sig mem_cons_self
        simp
    have htrue : failed = true := Bool.eq_true_of_not_eq_false (h ∘ hfailed.mp)
    rw [hresult, pushMultisigResult, if_pos ⟨htrue, hnonempty⟩]
    rfl

end

/-- One signature, valid for the second of two keys, by a check that changes nothing. -/
theorem opCheckMultisig_outcome_second :
    let vm := { TxScriptEngine.fromScript [] false with dstack := [[2], [20], [10], [1], [7, 1]] }
    (opCheckMultisig fun _ key _ => pure (key == [20])).outcome vm =
      some (.ok (), { vm with dstack := [[1]], numOps := 2 }) := by
  intro vm
  have hreads : MultisigReads vm [[10], [20]] [[7, 1]] { vm with dstack := [], numOps := 2 } :=
    ⟨_, _, _, rfl, rfl, rfl, rfl⟩
  have hcheck : ∀ sig ∈ [[7, 1]], CheckedBy (fun _ key _ => pure (key == [20]))
      (fun _ key => key == [20]) (fun _ => { vm with dstack := [], numOps := 2 }) 2
      [[10], [20]] sig := by
    intro sig hsig
    obtain rfl := mem_singleton.mp hsig
    exact ⟨[7], 1, ⟨1⟩, rfl, rfl, fun _ _ _ _ => rfl⟩
  obtain ⟨m, -, hok, -⟩ := opCheckMultisig_outcome hreads hcheck
  exact hok (.cons_right (.cons rfl .nil))

/-- Two signatures for one key are refused before any check. -/
theorem opCheckMultisig_two_for_one : ¬Assigned (fun _ _ => true) [[7, 1], [8, 1]] [[10]] ∧
    ∃ message vm, (opCheckMultisig fun _ _ _ => pure true).outcome
      { TxScriptEngine.fromScript [] false with dstack := [[1], [10], [2], [8, 1], [7, 1]] } =
      some (.error (.invalidSignatureCount message), vm) :=
  ⟨fun h => absurd (length_le_of_sublistForall₂ h) (by decide), _, _, rfl⟩

end LapisMonetae.Script
