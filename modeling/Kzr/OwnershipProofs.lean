import Kzr.FileHandleConnectionProofs
import Kzr.RunProofs
import Mathlib.Logic.Function.Basic

/-! # Who closes a descriptor

    The destructor of a `FileHandleConnection` closes the descriptor it refers
    to.  The class declares no copy operation, so the compiler's apply, and they
    copy the descriptor with the permission to close it.

    A program constructs, copies and destroys objects in any order.  As long as
    it makes no copies each object is the only one that refers to its
    descriptor, and closes it once.  A copy is never made good again: two
    objects that share a descriptor share one until the first of them goes, and
    when all objects are gone the descriptor has been closed under one of them. -/

namespace KzrOwnership

open KzrFileHandleConnection Runs

/-- The descriptors the destructor of an object passes to `::close`. -/
def destruct (this : FileHandleConnection) : List Int :=
  if this.isValidHandle && this.destroy then [this.handle] else []

/-! ## Programs on objects -/

/-- The live objects by number, the descriptors handed to constructors, and those
    passed to `::close` so far. -/
structure Program where
  objects : Nat → Option FileHandleConnection
  opened  : List Int
  closed  : List Int

/-- No object, and no descriptor opened or closed. -/
def Program.new : Program := ⟨fun _ => none, [], []⟩

/-- What a program does with objects of the class. -/
inductive Op where
  | construct (id : Nat) (fd : Int)
  | copyConstruct (id src : Nat)
  | copyAssign (dst src : Nat)
  | destroy (id : Nat)

/-- What an operation passes to `::close`. -/
def closing : Op → Program → List Int
  | .destroy id, p =>
      match p.objects id with
      | some this => destruct this
      | none      => []
  | _, _           => []

/-- What it makes of the objects and of the descriptors. -/
def step : Op → Program → Program
  | .construct id fd, p      =>
      { p with
        objects := Function.update p.objects id (some { handle := fd, destroy := true })
        opened := fd :: p.opened }
  -- both copy operations take over both members
  | .copyConstruct id src, p =>
      { p with objects := Function.update p.objects id (p.objects src) }
  | .copyAssign dst src, p   =>
      { p with objects := Function.update p.objects dst (p.objects src) }
  | .destroy id, p           =>
      { p with
        objects := Function.update p.objects id none
        closed := closing (.destroy id) p ++ p.closed }

/-- New objects are new, their descriptors are open and distinct from all before,
    and the objects worked on are live. -/
def Permitted : Op → Program → Prop
  | .construct id fd, p      => p.objects id = none ∧ 0 ≤ fd ∧ fd ∉ p.opened
  | .copyConstruct id src, p => p.objects id = none ∧ p.objects src ≠ none
  | .copyAssign dst src, p   => p.objects dst ≠ none ∧ p.objects src ≠ none
  | .destroy id, p           => p.objects id ≠ none

instance : (op : Op) → (p : Program) → Decidable (Permitted op p)
  | .construct id fd, p      =>
      inferInstanceAs (Decidable (p.objects id = none ∧ 0 ≤ fd ∧ fd ∉ p.opened))
  | .copyConstruct id src, p =>
      inferInstanceAs (Decidable (p.objects id = none ∧ p.objects src ≠ none))
  | .copyAssign dst src, p   =>
      inferInstanceAs (Decidable (p.objects dst ≠ none ∧ p.objects src ≠ none))
  | .destroy id, p           => inferInstanceAs (Decidable (p.objects id ≠ none))

/-- What an operation passes to `::close` has not been closed before, and no
    object that is live afterwards refers to it. -/
def ClosesOwn (op : Op) (p : Program) : Prop :=
  ∀ fd ∈ closing op p, fd ∉ p.closed
    ∧ ∀ id this, (step op p).objects id = some this → this.handle ≠ fd

/-- No copy is made, but for the assignment of an object to itself. -/
def MakesNoCopy : Op → Program → Prop
  | .copyConstruct _ _, _   => False
  | .copyAssign dst src, _  => dst = src
  | _, _                    => True

/-- Every object may close a descriptor. -/
def Owning (p : Program) : Prop :=
  ∀ id this, p.objects id = some this → destruct this = [this.handle]

/-- Every object is the only one that refers to its descriptor, which is open. -/
structure Sole (p : Program) : Prop where
  distinct : ∀ i j this that, p.objects i = some this → p.objects j = some that →
    this.handle = that.handle → i = j
  live     : ∀ id this, p.objects id = some this → this.handle ∈ p.opened ∧ this.handle ∉ p.closed
  closed   : ∀ fd ∈ p.closed, fd ∈ p.opened

/-- Two objects refer to one descriptor. -/
def Shared (p : Program) : Prop :=
  ∃ i j this that, i ≠ j ∧ p.objects i = some this ∧ p.objects j = some that
    ∧ this.handle = that.handle

/-! ## What a step does -/

/-- The number of the object an operation works on. -/
def Op.target : Op → Nat
  | .construct id _     => id
  | .copyConstruct id _ => id
  | .copyAssign dst _   => dst
  | .destroy id         => id

/-- What an operation makes of the object it is about. -/
theorem objects_target (op : Op) (p : Program) :
    (step op p).objects op.target = match op with
      | .construct _ fd      => some { handle := fd, destroy := true }
      | .copyConstruct _ src => p.objects src
      | .copyAssign _ src    => p.objects src
      | .destroy _           => none := by
  cases op <;> exact Function.update_self _ _ _

theorem objects_of_ne {op : Op} {id : Nat} (h : id ≠ op.target) (p : Program) :
    (step op p).objects id = p.objects id := by
  cases op <;> exact Function.update_of_ne h _ _

/-- An object that is live after a step has just been constructed, or was there
    before, or is a copy. -/
theorem objects_step {op : Op} {p : Program} {id : Nat} {this : FileHandleConnection}
    (h : (step op p).objects id = some this) :
    (∃ fd, op = .construct id fd ∧ this = { handle := fd, destroy := true })
      ∨ (p.objects id = some this ∧ op ≠ .destroy id)
      ∨ ∃ src, p.objects src = some this
        ∧ (op = .copyConstruct id src ∨ op = .copyAssign id src) := by
  by_cases hid : id = op.target
  · rw [hid, objects_target] at h
    subst hid
    cases op with
    | construct id fd => exact Or.inl ⟨fd, rfl, (Option.some.inj h).symm⟩
    | copyConstruct id src => exact Or.inr (Or.inr ⟨src, h, Or.inl rfl⟩)
    | copyAssign dst src => exact Or.inr (Or.inr ⟨src, h, Or.inr rfl⟩)
    | destroy id => exact nomatch h
  · rw [objects_of_ne hid] at h
    refine Or.inr (Or.inl ⟨h, ?_⟩)
    rintro rfl
    exact hid rfl

/-- Only a destruction closes anything, and it closes what the object refers to. -/
theorem closing_cases {op : Op} {p : Program} {fd : Int} (h : fd ∈ closing op p) :
    ∃ id this, op = .destroy id ∧ p.objects id = some this ∧ fd = this.handle := by
  cases op with
  | destroy id =>
      rw [closing] at h
      cases hid : p.objects id with
      | none =>
          rw [hid] at h
          exact nomatch h
      | some this =>
          rw [hid] at h
          refine ⟨id, this, rfl, hid, ?_⟩
          simp only [destruct] at h
          split_ifs at h
          · exact List.mem_singleton.mp h
          · exact nomatch h
  | construct id fd' => exact nomatch h
  | copyConstruct id src => exact nomatch h
  | copyAssign dst src => exact nomatch h

/-- What an operation closes joins what has been closed. -/
theorem closed_step (op : Op) (p : Program) :
    (step op p).closed = closing op p ++ p.closed := by
  cases op <;> rfl

theorem opened_step (op : Op) (p : Program) : p.opened ⊆ (step op p).opened := by
  cases op with
  | construct id fd => exact List.subset_cons_self fd p.opened
  | copyConstruct id src => exact List.Subset.refl _
  | copyAssign dst src => exact List.Subset.refl _
  | destroy id => exact List.Subset.refl _

theorem owning_step {op : Op} {p : Program} (hs : Owning p) (h : Permitted op p) :
    Owning (step op p) := by
  intro id this hthis
  rcases objects_step hthis with ⟨fd, rfl, rfl⟩ | ⟨hold, -⟩ | ⟨src, hsrc, -⟩
  · obtain ⟨-, hfd, -⟩ := h
    simp [destruct, FileHandleConnection.isValidHandle, hfd]
  · exact hs id this hold
  · exact hs src this hsrc

/-! ## Programs that make no copies -/

/-- Without copies an object is a new one or was there. -/
theorem objects_step_of_noCopy {op : Op} {p : Program} (hno : MakesNoCopy op p) {id : Nat}
    {this : FileHandleConnection} (h : (step op p).objects id = some this) :
    (∃ fd, op = .construct id fd ∧ this = { handle := fd, destroy := true })
      ∨ (p.objects id = some this ∧ op ≠ .destroy id) := by
  rcases objects_step h with hnew | hold | ⟨src, hsrc, rfl | rfl⟩
  · exact Or.inl hnew
  · exact Or.inr hold
  · exact hno.elim
  · have hself : id = src := hno
    exact Or.inr ⟨hself ▸ hsrc, by simp⟩

theorem sole_new : Sole .new where
  distinct := by
    intro i j this that hi
    exact nomatch hi
  live := by
    intro id this hid
    exact nomatch hid
  closed := List.forall_mem_nil _

/-- **NO COPIES, NO SHARING**. -/
theorem sole_step {op : Op} {p : Program} (hs : Sole p) (h : Permitted op p)
    (hno : MakesNoCopy op p) : Sole (step op p) where
  distinct := by
    intro i j this that hi hj heq
    rcases objects_step_of_noCopy hno hi with ⟨fd, rfl, rfl⟩ | ⟨hi', -⟩
    · rcases objects_step_of_noCopy hno hj with ⟨fd', hop, -⟩ | ⟨hj', -⟩
      · injection hop
      · -- the new descriptor is none of those opened before
        obtain ⟨-, -, hfresh⟩ := h
        have hopened : that.handle ∈ p.opened := (hs.live j that hj').1
        rw [← heq] at hopened
        exact absurd hopened hfresh
    · rcases objects_step_of_noCopy hno hj with ⟨fd', rfl, rfl⟩ | ⟨hj', -⟩
      · obtain ⟨-, -, hfresh⟩ := h
        have hopened : this.handle ∈ p.opened := (hs.live i this hi').1
        rw [heq] at hopened
        exact absurd hopened hfresh
      · exact hs.distinct i j this that hi' hj' heq
  live := by
    intro id this hid
    rw [closed_step, List.mem_append, not_or]
    rcases objects_step_of_noCopy hno hid with ⟨fd, rfl, rfl⟩ | ⟨hold, hkept⟩
    · obtain ⟨-, -, hfresh⟩ := h
      refine ⟨List.mem_cons_self, List.not_mem_nil, ?_⟩
      exact fun hmem => hfresh (hs.closed fd hmem)
    · obtain ⟨hopened, hunclosed⟩ := hs.live id this hold
      refine ⟨opened_step op p hopened, ?_, hunclosed⟩
      intro hmem
      obtain ⟨gone, that, rfl, hgone, heq⟩ := closing_cases hmem
      exact hkept (congrArg Op.destroy (hs.distinct gone id that this hgone hold heq.symm))
  closed := by
    intro fd hmem
    rw [closed_step, List.mem_append] at hmem
    refine opened_step op p ?_
    rcases hmem with hmem | hmem
    · obtain ⟨gone, that, -, hgone, rfl⟩ := closing_cases hmem
      exact (hs.live gone that hgone).1
    · exact hs.closed fd hmem

/-- The only object that refers to a descriptor is the one to close it. -/
theorem closesOwn_of_sole {op : Op} {p : Program} (hs : Sole p) : ClosesOwn op p := by
  intro fd hmem
  obtain ⟨gone, that, rfl, hgone, rfl⟩ := closing_cases hmem
  refine ⟨(hs.live gone that hgone).2, ?_⟩
  intro id this hid heq
  have hno : MakesNoCopy (.destroy gone) p := trivial
  rcases objects_step_of_noCopy hno hid with ⟨fd, hop, -⟩ | ⟨hold, hkept⟩
  · exact nomatch hop
  · exact hkept (congrArg Op.destroy (hs.distinct gone id that this hgone hold heq.symm))

/-! ## Copies -/

/-- An object and its copy share their descriptor. -/
theorem shared_of_copy {op : Op} {p : Program} (h : Permitted op p) (hcopy : ¬ MakesNoCopy op p) :
    Shared (step op p) := by
  have hshared : ∀ {src}, op.target ≠ src → p.objects src ≠ none →
      (step op p).objects op.target = p.objects src → Shared (step op p) := by
    intro src hne hsrc hcopied
    obtain ⟨this, hthis⟩ := Option.ne_none_iff_exists'.mp hsrc
    refine ⟨op.target, src, this, this, hne, hcopied.trans hthis, ?_, rfl⟩
    rw [objects_of_ne hne.symm, hthis]
  cases op with
  | construct id fd => exact absurd trivial hcopy
  | copyConstruct id src =>
      obtain ⟨hfresh, hsrc⟩ := h
      have hne : id ≠ src := by
        rintro rfl
        exact hsrc hfresh
      exact hshared hne hsrc (objects_target _ p)
  | copyAssign dst src => exact hshared hcopy h.2 (objects_target _ p)
  | destroy id => exact absurd trivial hcopy

/-- **SHARING STAYS** as long as nothing is closed under an object that refers to
    it: only a destruction could end it, and would close what is shared. -/
theorem shared_step {op : Op} {p : Program} (howning : Owning p) (h : Permitted op p)
    (hown : ClosesOwn op p) (hs : Shared p) : Shared (step op p) := by
  by_cases hno : MakesNoCopy op p
  · obtain ⟨i, j, this, that, hne, hi, hj, heq⟩ := hs
    have hkeep : ∀ {k o}, k ≠ op.target → p.objects k = some o →
        (step op p).objects k = some o :=
      fun hk ho => (objects_of_ne hk p).trans ho
    cases op with
    | construct id fd =>
        obtain ⟨hfresh, -, -⟩ := h
        have hold : ∀ {k o}, p.objects k = some o → k ≠ id := by
          rintro k o hk rfl
          rw [hfresh] at hk
          exact nomatch hk
        exact ⟨i, j, this, that, hne, hkeep (hold hi) hi, hkeep (hold hj) hj, heq⟩
    | copyConstruct id src => exact hno.elim
    | copyAssign dst src =>
        have hself : dst = src := hno
        have hsame : step (.copyAssign dst src) p = p := by
          rw [hself, step, Function.update_eq_self]
        rw [hsame]
        exact ⟨i, j, this, that, hne, hi, hj, heq⟩
    | destroy id =>
        have hclosing : ∀ {o}, p.objects id = some o → o.handle ∈ closing (.destroy id) p := by
          intro o hid
          simp only [closing, hid, howning id o hid]
          exact List.mem_singleton_self _
        have hi' : i ≠ id := by
          rintro rfl
          exact (hown _ (hclosing hi)).2 j that (hkeep hne.symm hj) heq.symm
        have hj' : j ≠ id := by
          rintro rfl
          exact (hown _ (hclosing hj)).2 i this (hkeep hne hi) heq
        exact ⟨i, j, this, that, hne, hkeep hi' hi, hkeep hj' hj, heq⟩
  · exact shared_of_copy h hno

/-- **DESCRIPTOR OWNERSHIP**: a program that makes no copy closes each descriptor
    at most once, and under no other object; and of the programs that leave no
    object behind, these are the only ones. -/
theorem closes_own_run {ops : List Op} (hops : EveryStep step Permitted ops .new) :
    (EveryStep step MakesNoCopy ops .new → EveryStep step ClosesOwn ops .new)
      ∧ ((∀ id, (run step ops .new).objects id = none) →
        EveryStep step ClosesOwn ops .new → EveryStep step MakesNoCopy ops .new) := by
  constructor
  · intro hno
    exact (hops.and hno).imp (fun op p hs h => sole_step hs h.1 h.2)
      (fun op p hs _ => closesOwn_of_sole hs) sole_new
  · intro hgone hown
    have howning : Owning .new := fun id this hid => nomatch hid
    refine (everyStep_of_unbroken (fun op p hs h => owning_step hs h.1)
      (fun op p _ h => shared_of_copy h.1) (fun op p hs h => shared_step hs h.1 h.2)
      howning (hops.and hown) ?_).1
    rintro ⟨i, j, this, that, -, hi, -, -⟩
    rw [hgone i] at hi
    exact nomatch hi

/-- Two objects live side by side, and one of them is assigned to itself. -/
theorem closes_own_assigned :
    let ops : List Op :=
      [.construct 0 3, .construct 1 4, .copyAssign 0 0, .destroy 1, .destroy 0]
    EveryStep step ClosesOwn ops .new ∧ (run step ops .new).closed = [3, 4] :=
  ⟨(closes_own_run (by decide)).1 ⟨trivial, trivial, rfl, trivial, trivial, trivial⟩, rfl⟩

/-- An object and its copy close the descriptor twice, the first time under the
    other. -/
theorem copy_closes_twice :
    let ops : List Op := [.construct 0 3, .copyConstruct 1 0, .destroy 1, .destroy 0]
    EveryStep step Permitted ops .new ∧ (run step ops .new).closed = [3, 3]
      ∧ ¬ EveryStep step ClosesOwn ops .new := by
  intro ops
  refine ⟨by decide, rfl, ?_⟩
  rintro ⟨-, -, hfirst, -⟩
  have hother := (hfirst 3 (List.mem_singleton_self 3)).2 0 ⟨3, true⟩ rfl
  exact hother rfl

end KzrOwnership
