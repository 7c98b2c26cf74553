import Mathlib.Tactic.Common

/-! # Runs — a machine taking one input after the other

    A machine is a total step function on a state; whether a step was allowed,
    or did what it should, is a predicate on the input and the state it meets.
    `EveryStep` says it of all steps of a run and `EveryState` says something of
    all states passed through.  The module names no program; inputs and states
    are arbitrary types.

    Each rule is one induction over the inputs: an invariant carries over from
    step to step and lets one predicate on steps stand for another. -/

namespace Runs

variable {S ι : Type*} {step : ι → S → S} {P Q : ι → S → Prop} {Inv : S → Prop}

/-- The state a run ends in. -/
def run (step : ι → S → S) : List ι → S → S
  | [], s      => s
  | i :: is, s => run step is (step i s)

/-- `P` holds of every input and the state it meets. -/
def EveryStep (step : ι → S → S) (P : ι → S → Prop) : List ι → S → Prop
  | [], _      => True
  | i :: is, s => P i s ∧ EveryStep step P is (step i s)

instance decidableEveryStep [∀ i s, Decidable (P i s)] : ∀ is s, Decidable (EveryStep step P is s)
  | [], _      => inferInstanceAs (Decidable True)
  | i :: is, s =>
      have := decidableEveryStep is (step i s)
      inferInstanceAs (Decidable (P i s ∧ EveryStep step P is (step i s)))

/-- `Inv` holds of every state of a run, its first and its last included. -/
def EveryState (step : ι → S → S) (Inv : S → Prop) : List ι → S → Prop
  | [], s      => Inv s
  | i :: is, s => Inv s ∧ EveryState step Inv is (step i s)

theorem EveryStep.and {is : List ι} {s : S} (hP : EveryStep step P is s)
    (hQ : EveryStep step Q is s) : EveryStep step (fun i s => P i s ∧ Q i s) is s := by
  induction is generalizing s with
  | nil => trivial
  | cons i is ih =>
      obtain ⟨hp, hP⟩ := hP
      obtain ⟨hq, hQ⟩ := hQ
      exact ⟨⟨hp, hq⟩, ih hP hQ⟩

theorem everyStep_congr (h : ∀ i s, P i s ↔ Q i s) (is : List ι) (s : S) :
    EveryStep step P is s ↔ EveryStep step Q is s := by
  induction is generalizing s with
  | nil => exact Iff.rfl
  | cons i is ih => exact and_congr (h i s) (ih (step i s))

/-- **INVARIANTS**: what holds at first and is preserved by the steps taken holds
    throughout. -/
theorem everyState_of_invariant (hstep : ∀ i s, Inv s → P i s → Inv (step i s))
    {is : List ι} {s : S} (hs : Inv s) (hP : EveryStep step P is s) :
    EveryState step Inv is s := by
  induction is generalizing s with
  | nil => exact hs
  | cons i is ih =>
      obtain ⟨hp, hP⟩ := hP
      exact ⟨hs, ih (hstep i s hs hp) hP⟩

theorem EveryState.last {is : List ι} {s : S} (h : EveryState step Inv is s) :
    Inv (run step is s) := by
  induction is generalizing s with
  | nil => exact h
  | cons i is ih => exact ih h.2

/-- Under an invariant one predicate on steps gives another. -/
theorem EveryStep.imp (hstep : ∀ i s, Inv s → P i s → Inv (step i s))
    (himp : ∀ i s, Inv s → P i s → Q i s) {is : List ι} {s : S} (hs : Inv s)
    (hP : EveryStep step P is s) : EveryStep step Q is s := by
  induction is generalizing s with
  | nil => trivial
  | cons i is ih =>
      obtain ⟨hp, hP⟩ := hP
      exact ⟨himp i s hs hp, ih (hstep i s hs hp) hP⟩

/-- What is broken stays broken: if a step without `Q` breaks something that no
    later step mends, and nothing is broken at the end, every step had `Q`. -/
theorem everyStep_of_unbroken {Broken : S → Prop}
    (hstep : ∀ i s, Inv s → P i s → Inv (step i s))
    (hbreak : ∀ i s, Inv s → P i s → ¬ Q i s → Broken (step i s))
    (hstay : ∀ i s, Inv s → P i s → Broken s → Broken (step i s)) {is : List ι} {s : S}
    (hs : Inv s) (hP : EveryStep step P is s) (hend : ¬ Broken (run step is s)) :
    EveryStep step Q is s ∧ ¬ Broken s := by
  induction is generalizing s with
  | nil => exact ⟨trivial, hend⟩
  | cons i is ih =>
      obtain ⟨hp, hP⟩ := hP
      obtain ⟨hQ, hunbroken⟩ := ih (hstep i s hs hp) hP hend
      refine ⟨⟨?_, hQ⟩, fun h => hunbroken (hstay i s hs hp h)⟩
      by_contra hq
      exact hunbroken (hbreak i s hs hp hq)

end Runs
