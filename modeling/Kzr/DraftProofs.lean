import Mathlib.Algebra.GroupWithZero.Nat
import Mathlib.Data.List.Basic
import Mathlib.Tactic.Common

/-! # Drafts — output that may stop half-way

    A draft is what a writer gets done: the symbols it puts, and whether it
    gets through or stops behind them.  Writers run one after the other until
    one of them stops.  The module names no program; its symbols are an
    arbitrary type. -/

namespace Drafting

variable {γ α : Type}

/-- What is put, and whether the writer gets through. -/
@[ext]
structure Draft (γ : Type) where
  written  : List γ
  complete : Bool
deriving DecidableEq

/-- The writer puts `cs` and gets through. -/
def Draft.whole (cs : List γ) : Draft γ := ⟨cs, true⟩

/-- The writer stops before it puts anything. -/
def Draft.refused : Draft γ := ⟨[], false⟩

/-- Nothing is put unless `p` holds. -/
def Draft.check (p : Prop) [Decidable p] (d : Draft γ) : Draft γ := if p then d else .refused

/-- First `d`, then `e` if `d` gets through. -/
def Draft.seq (d e : Draft γ) : Draft γ :=
  if d.complete then ⟨d.written ++ e.written, e.complete⟩ else d

/-- One after the other, up to the first that stops. -/
def Draft.all : List (Draft γ) → Draft γ
  | []      => .whole []
  | d :: ds => d.seq (all ds)

/-! ## Who gets through -/

@[simp] theorem complete_whole (cs : List γ) : (Draft.whole cs).complete = true := rfl

@[simp] theorem complete_check (p : Prop) [Decidable p] (d : Draft γ) :
    (d.check p).complete = true ↔ p ∧ d.complete = true := by
  by_cases hp : p
  · simp [Draft.check, hp]
  · simp [Draft.check, hp, Draft.refused]

@[simp] theorem complete_seq (d e : Draft γ) :
    (d.seq e).complete = true ↔ d.complete = true ∧ e.complete = true := by
  by_cases hd : d.complete = true
  · simp [Draft.seq, hd]
  · simp [Draft.seq, hd]

/-- All get through when each does. -/
theorem complete_all {ds : List (Draft γ)} :
    (Draft.all ds).complete = true ↔ ∀ d ∈ ds, d.complete = true := by
  induction ds with
  | nil => simp [Draft.all]
  | cons d ds ih => simp [Draft.all, ih]

/-! ## Sequencing -/

theorem whole_seq_whole (cs ds : List γ) :
    (Draft.whole cs).seq (.whole ds) = .whole (cs ++ ds) := rfl

@[simp] theorem seq_whole_nil (d : Draft γ) : d.seq (.whole []) = d := by
  by_cases hd : d.complete = true
  · ext1
    · simp [Draft.seq, hd, Draft.whole]
    · simp [Draft.seq, hd]
  · simp [Draft.seq, hd]

/-- It does not matter how three writers are grouped. -/
theorem seq_assoc (c d e : Draft γ) : (c.seq d).seq e = c.seq (d.seq e) := by
  by_cases hc : c.complete = true
  · by_cases hd : d.complete = true
    · simp [Draft.seq, hc, hd]
    · simp [Draft.seq, hc, hd]
  · simp [Draft.seq, hc]

theorem all_append (ds es : List (Draft γ)) :
    Draft.all (ds ++ es) = (Draft.all ds).seq (.all es) := by
  induction ds with
  | nil => rfl
  | cons d ds ih => rw [List.cons_append, Draft.all, Draft.all, ih, seq_assoc]

/-- Nothing stops a list of whole drafts. -/
theorem all_whole (f : α → List γ) (as : List α) :
    Draft.all (as.map fun a => .whole (f a)) = .whole (as.flatMap f) := by
  induction as with
  | nil => rfl
  | cons a as ih =>
      rw [List.map_cons, Draft.all, ih, whole_seq_whole, List.flatMap_cons]

/-! ## What has been put -/

theorem written_check {p : Prop} [Decidable p] (hp : p) (d : Draft γ) :
    (d.check p).written = d.written := by
  rw [Draft.check, if_pos hp]

theorem written_seq {d : Draft γ} (hd : d.complete = true) (e : Draft γ) :
    (d.seq e).written = d.written ++ e.written := by
  rw [Draft.seq, if_pos hd]

/-- When all get through, the lengths add up. -/
theorem length_all {ds : List (Draft γ)} (h : (Draft.all ds).complete = true) :
    (Draft.all ds).written.length = (ds.map fun d => d.written.length).sum := by
  induction ds with
  | nil => rfl
  | cons d ds ih =>
      obtain ⟨hd, hds⟩ := (complete_seq _ _).mp h
      rw [Draft.all, written_seq hd, List.length_append, ih hds, List.map_cons, List.sum_cons]

end Drafting
