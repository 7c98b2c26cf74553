import Mathlib.Data.List.Forall2
import Mathlib.Tactic.Common
import Kzr.RunProofs

/-! # Simulations — two machines step by step

    A machine takes one input after the other, and answers each.  One machine
    simulates another when some relation between their states is kept by every
    input and the answers agree; over a run the answers then agree one by one.
    The module names no program; inputs, states and answers are arbitrary
    types. -/

namespace Simulation

variable {S T U ι ρ ρ' ρ'' : Type}

/-- The answers of a run. -/
def answers (step : ι → S → ρ × S) : List ι → S → List ρ
  | [], _      => []
  | i :: is, s => (step i s).1 :: answers step is (step i s).2

/-- The state a run ends in. -/
def final (step : ι → S → ρ × S) (is : List ι) (s : S) : S :=
  Runs.run (fun i s => (step i s).2) is s

theorem final_cons (step : ι → S → ρ × S) (i : ι) (is : List ι) (s : S) :
    final step (i :: is) s = final step is (step i s).2 := rfl

/-- Related states answer alike and stay related. -/
def Simulates (R : S → T → Prop) (Q : ρ → ρ' → Prop) (step : ι → S → ρ × S)
    (step' : ι → T → ρ' × T) : Prop :=
  ∀ i s t, R s t → Q (step i s).1 (step' i t).1 ∧ R (step i s).2 (step' i t).2

/-- **ONE STEP IS ENOUGH**: the answers of related runs agree throughout, and the
    runs end in related states. -/
theorem Simulates.run {R : S → T → Prop} {Q : ρ → ρ' → Prop} {step : ι → S → ρ × S}
    {step' : ι → T → ρ' × T} (h : Simulates R Q step step') (is : List ι) {s : S} {t : T}
    (hst : R s t) :
    List.Forall₂ Q (answers step is s) (answers step' is t)
      ∧ R (final step is s) (final step' is t) := by
  induction is generalizing s t with
  | nil => exact ⟨.nil, hst⟩
  | cons i is ih =>
      obtain ⟨hQ, hR⟩ := h i s t hst
      obtain ⟨hall, hfinal⟩ := ih hR
      exact ⟨.cons hQ hall, hfinal⟩

/-- **EVERY ANSWER ACCOUNTS FOR ITS STEP**, so the answers of a run account for all it
    has added to a record. -/
theorem answers_account {α : Type} {step : ι → S → ρ × S} {record : S → List α}
    {Q : ρ → List α → Prop}
    (h : ∀ i s, ∃ added, Q (step i s).1 added ∧ record (step i s).2 = record s ++ added)
    (is : List ι) (s : S) :
    ∃ all, List.Forall₂ Q (answers step is s) all
      ∧ record (final step is s) = record s ++ all.flatten := by
  induction is generalizing s with
  | nil => exact ⟨[], .nil, (List.append_nil _).symm⟩
  | cons i is ih =>
      obtain ⟨added, hQ, hadded⟩ := h i s
      obtain ⟨all, hall, hfinal⟩ := ih (step i s).2
      refine ⟨added :: all, .cons hQ hall, ?_⟩
      rw [final_cons, hfinal, hadded, List.flatten_cons, List.append_assoc]

end Simulation
