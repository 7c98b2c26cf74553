import Kzr.DraftProofs

/-! # Reports — output that stops for a reason

    A report refines a draft: it has the symbols a writer puts, and what stops
    it behind them, if anything does.  Reports run one after the other like
    drafts, and the reason that counts is the first.  The module names no
    program; symbols and reasons are arbitrary types. -/

namespace Reporting

open Drafting

variable {γ ε α : Type}

/-- What is put, and what stops the writer behind it. -/
@[ext]
structure Report (γ ε : Type) where
  written : List γ
  stopped : Option ε
deriving DecidableEq

/-- The writer puts `cs` and gets through. -/
def Report.whole (cs : List γ) : Report γ ε := ⟨cs, none⟩

/-- The writer stops before it puts anything. -/
def Report.refused (ex : ε) : Report γ ε := ⟨[], some ex⟩

/-- Nothing is put when there is a reason not to. -/
def Report.check (reason : Option ε) (r : Report γ ε) : Report γ ε :=
  match reason with
  | some ex => .refused ex
  | none    => r

/-- First `r`, then `t` if nothing stops `r`. -/
def Report.seq (r t : Report γ ε) : Report γ ε :=
  match r.stopped with
  | some _ => r
  | none   => ⟨r.written ++ t.written, t.stopped⟩

/-- One after the other, up to the first that is stopped. -/
def Report.all : List (Report γ ε) → Report γ ε
  | []      => .whole []
  | r :: rs => r.seq (all rs)

/-- The report without its reason. -/
def Report.draft (r : Report γ ε) : Draft γ := ⟨r.written, r.stopped.isNone⟩

@[simp] theorem seq_whole_nil (r : Report γ ε) : r.seq (.whole []) = r := by
  obtain ⟨cs, reason⟩ := r
  cases reason with
  | none => rw [Report.seq, Report.whole, List.append_nil]
  | some ex => rfl

theorem seq_assoc (r t u : Report γ ε) : (r.seq t).seq u = r.seq (t.seq u) := by
  obtain ⟨cs, reason⟩ := r
  obtain ⟨ds, reason'⟩ := t
  cases reason with
  | some ex => rfl
  | none =>
      cases reason' with
      | some ex => rfl
      | none => exact congrArg (Report.mk · u.stopped) (List.append_assoc cs ds u.written)

theorem all_append (rs ts : List (Report γ ε)) :
    Report.all (rs ++ ts) = (Report.all rs).seq (.all ts) := by
  induction rs with
  | nil => rfl
  | cons r rs ih => rw [List.cons_append, Report.all, Report.all, ih, seq_assoc]

/-! ## Reports are drafts with a reason -/

@[simp] theorem draft_whole (cs : List γ) : (Report.whole cs : Report γ ε).draft = .whole cs := rfl

theorem draft_check {p : Prop} [Decidable p] {reason : Option ε} (h : reason = none ↔ p)
    (r : Report γ ε) : (r.check reason).draft = .check p r.draft := by
  cases reason with
  | none => rw [Draft.check, if_pos (h.mp rfl)]; rfl
  | some ex => rw [Draft.check, if_neg (fun hp => Option.some_ne_none ex (h.mpr hp))]; rfl

/-- Running reports one after the other runs their drafts. -/
theorem draft_seq (r t : Report γ ε) : (r.seq t).draft = r.draft.seq t.draft := by
  obtain ⟨cs, reason⟩ := r
  cases reason with
  | none => rfl
  | some ex => rfl

theorem draft_all (rs : List (Report γ ε)) :
    (Report.all rs).draft = Draft.all (rs.map Report.draft) := by
  induction rs with
  | nil => rfl
  | cons r rs ih => rw [Report.all, draft_seq, ih, List.map_cons, Draft.all]

/-! ## The reason that counts -/

/-- A reason in front comes before those behind. -/
theorem stopped_check (reason : Option ε) (r : Report γ ε) :
    (r.check reason).stopped = reason.or r.stopped := by
  cases reason with
  | none => rfl
  | some ex => rfl

theorem stopped_seq (r t : Report γ ε) : (r.seq t).stopped = r.stopped.or t.stopped := by
  obtain ⟨cs, reason⟩ := r
  cases reason with
  | none => rfl
  | some ex => rfl

/-- **THE FIRST REASON COUNTS**. -/
theorem stopped_all (f : α → Report γ ε) (as : List α) :
    (Report.all (as.map f)).stopped = as.findSome? fun a => (f a).stopped := by
  induction as with
  | nil => rfl
  | cons a as ih =>
      rw [List.map_cons, Report.all, stopped_seq, ih, List.findSome?_cons]
      cases (f a).stopped with
      | none => rfl
      | some ex => rfl

end Reporting
