import Kzr.OwnershipProofs

/-! # Descriptors nobody closes

    Closing a descriptor twice is one thing a copy can lead to; never closing it is
    the other.  An assignment gives up what the object referred to before without a
    `::close`, and when no other object refers to that, none ever will: a descriptor
    is handed to a constructor only once.

    So descriptors are lost in assignments and nowhere else, and a program loses
    none exactly when no assignment gives up the last reference to an open one. -/

namespace KzrLeak

open KzrFileHandleConnection KzrOwnership Runs

/-- Some object refers to the descriptor. -/
def Referred (fd : Int) (p : Program) : Prop :=
  ∃ id this, p.objects id = some this ∧ this.handle = fd

/-- The descriptor is open, and nobody is left to close it. -/
def Lost (fd : Int) (p : Program) : Prop := fd ∈ p.opened ∧ fd ∉ p.closed ∧ ¬ Referred fd p

/-- An assignment to the only object that refers to an open descriptor, from one
    that refers to another. -/
def Abandons : Op → Program → Prop
  | .copyAssign dst src, p => ∃ this that, p.objects dst = some this ∧ p.objects src = some that
      ∧ this.handle ∉ p.closed ∧ that.handle ≠ this.handle
      ∧ ∀ id other, p.objects id = some other → other.handle = this.handle → id = dst
  | _, _                   => False

/-- What an object refers to has been opened, and what has been closed was open;
    and every object may close its descriptor. -/
structure Opened (p : Program) : Prop where
  owning : Owning p
  live   : ∀ fd, Referred fd p → fd ∈ p.opened
  closed : ∀ fd ∈ p.closed, fd ∈ p.opened

theorem opened_new : Opened .new where
  owning := by
    intro id this hid
    cases hid
  live := by
    rintro fd ⟨id, this, hid, -⟩
    cases hid
  closed := List.forall_mem_nil _

/-! ## What a step does to references -/

/-- An object that a step does not work on refers to what it did. -/
theorem Referred.kept {fd : Int} {p : Program} {op : Op} {id : Nat} {this : FileHandleConnection}
    (hid : p.objects id = some this) (hfd : this.handle = fd) (hne : id ≠ op.target) :
    Referred fd (step op p) :=
  ⟨id, this, (objects_of_ne hne p).trans hid, hfd⟩

/-- After a step an object refers to a new descriptor, or to what one did before. -/
theorem referred_step {fd : Int} {p : Program} {op : Op} (h : Referred fd (step op p)) :
    (∃ id, op = .construct id fd) ∨ Referred fd p := by
  obtain ⟨id, this, hid, rfl⟩ := h
  rcases objects_step hid with ⟨fd, rfl, rfl⟩ | ⟨hold, -⟩ | ⟨src, hsrc, -⟩
  · exact Or.inl ⟨id, rfl⟩
  · exact Or.inr ⟨id, this, hold, rfl⟩
  · exact Or.inr ⟨src, this, hsrc, rfl⟩

theorem mem_opened_step {fd : Int} {p : Program} {op : Op} :
    fd ∈ (step op p).opened ↔ fd ∈ p.opened ∨ ∃ id, op = .construct id fd := by
  cases op with
  | construct id fd' =>
      constructor
      · intro hmem
        rcases List.mem_cons.mp hmem with rfl | hmem
        · exact Or.inr ⟨id, rfl⟩
        · exact Or.inl hmem
      · rintro (hmem | ⟨id', heq⟩)
        · exact List.mem_cons_of_mem fd' hmem
        · injection heq with _ heq
          exact heq ▸ List.mem_cons_self
  | copyConstruct id src => exact (or_iff_left (by rintro ⟨id', heq⟩; cases heq)).symm
  | copyAssign dst src => exact (or_iff_left (by rintro ⟨id', heq⟩; cases heq)).symm
  | destroy id => exact (or_iff_left (by rintro ⟨id', heq⟩; cases heq)).symm

theorem opened_keeps {op : Op} {p : Program} (hs : Opened p) (h : Permitted op p) :
    Opened (step op p) where
  owning := owning_step hs.owning h
  live := by
    intro fd hfd
    rcases referred_step hfd with hnew | hold
    · exact mem_opened_step.mpr (Or.inr hnew)
    · exact mem_opened_step.mpr (Or.inl (hs.live fd hold))
  closed := by
    intro fd hmem
    rw [closed_step, List.mem_append] at hmem
    refine opened_step op p ?_
    rcases hmem with hmem | hmem
    · obtain ⟨gone, that, -, hgone, rfl⟩ := closing_cases hmem
      exact hs.live _ ⟨gone, that, hgone, rfl⟩
    · exact hs.closed fd hmem

/-! ## Losing a descriptor -/

/-- **WHAT IS LOST STAYS LOST**: no constructor is handed it again. -/
theorem lost_stays {fd : Int} {op : Op} {p : Program} (h : Permitted op p) (hlost : Lost fd p) :
    Lost fd (step op p) := by
  obtain ⟨hopened, hunclosed, hnone⟩ := hlost
  refine ⟨opened_step op p hopened, ?_, ?_⟩
  · rw [closed_step, List.mem_append, not_or]
    refine ⟨?_, hunclosed⟩
    intro hmem
    obtain ⟨gone, that, -, hgone, rfl⟩ := closing_cases hmem
    exact hnone ⟨gone, that, hgone, rfl⟩
  · intro hfd
    rcases referred_step hfd with ⟨id, rfl⟩ | hold
    · exact h.2.2 hopened
    · exact hnone hold

/-- The last object that refers to an open descriptor takes the reference with it
    only when another descriptor is assigned to it. -/
theorem abandons_of_last {op : Op} {p : Program} {id : Nat} {this : FileHandleConnection}
    (hs : Opened p) (h : Permitted op p) (hid : p.objects id = some this)
    (hunclosed : this.handle ∉ (step op p).closed) (hnone : ¬ Referred this.handle (step op p)) :
    Abandons op p := by
  have hlast : ∀ id' other, p.objects id' = some other → other.handle = this.handle →
      id' = op.target := by
    intro id' other hid' heq
    by_contra hne
    exact hnone (.kept hid' heq hne)
  obtain rfl : id = op.target := hlast id this hid rfl
  cases op with
  | construct id fd =>
      rw [Op.target, h.1] at hid
      cases hid
  | copyConstruct id src =>
      rw [Op.target, h.1] at hid
      cases hid
  | copyAssign dst src =>
      obtain ⟨that, hthat⟩ := Option.ne_none_iff_exists'.mp h.2
      refine ⟨this, that, hid, hthat, hunclosed, ?_, hlast⟩
      intro heq
      exact hnone ⟨dst, that, (objects_target _ p).trans hthat, heq⟩
  | destroy id =>
      -- the destructor has closed it
      refine absurd ?_ hunclosed
      rw [closed_step, closing, show p.objects id = some this from hid]
      simp only [hs.owning id this hid]
      exact List.mem_append_left _ (List.mem_singleton_self _)

/-- **WHO LOSES A DESCRIPTOR**: only an assignment that abandons one. -/
theorem lost_step {fd : Int} {op : Op} {p : Program} (hs : Opened p) (h : Permitted op p)
    (hlost : Lost fd (step op p)) : Lost fd p ∨ Abandons op p := by
  obtain ⟨hopened, hunclosed, hnone⟩ := hlost
  have hold : fd ∉ p.closed := by
    rw [closed_step, List.mem_append, not_or] at hunclosed
    exact hunclosed.2
  rcases mem_opened_step.mp hopened with hopened | ⟨id, rfl⟩
  · by_cases hreferred : Referred fd p
    · obtain ⟨id, this, hid, rfl⟩ := hreferred
      exact Or.inr (abandons_of_last hs h hid hunclosed hnone)
    · exact Or.inl ⟨hopened, hold, hreferred⟩
  · exact absurd ⟨id, _, objects_target (.construct id fd) p, rfl⟩ hnone

/-- An assignment that abandons a descriptor loses it. -/
theorem lost_of_abandons {op : Op} {p : Program} (hs : Opened p) (h : Abandons op p) :
    ∃ fd, Lost fd (step op p) := by
  cases op with
  | construct id fd => exact h.elim
  | copyConstruct id src => exact h.elim
  | destroy id => exact h.elim
  | copyAssign dst src =>
      obtain ⟨this, that, hdst, hsrc, hunclosed, hne, hlast⟩ := h
      refine ⟨this.handle, hs.live _ ⟨dst, this, hdst, rfl⟩, hunclosed, ?_⟩
      rintro ⟨id, other, hid, heq⟩
      by_cases hid' : id = dst
      · have hcopied : (step (.copyAssign dst src) p).objects dst = p.objects src :=
          objects_target (.copyAssign dst src) p
        rw [hid', hcopied, hsrc] at hid
        obtain rfl := Option.some.inj hid
        exact hne heq
      · rw [objects_of_ne (show id ≠ (Op.copyAssign dst src).target from hid')] at hid
        exact hid' (hlast id other hid heq)

/-- **NO DESCRIPTOR IS LOST** in a program exactly when no assignment abandons one:
    every descriptor it was handed has been closed, or some object refers to it. -/
theorem nothing_lost_iff {ops : List Op} (hops : EveryStep step Permitted ops .new) :
    (∀ fd ∈ (run step ops .new).opened,
        fd ∈ (run step ops .new).closed ∨ Referred fd (run step ops .new))
      ↔ EveryStep step (fun op p => ¬ Abandons op p) ops .new := by
  have hlost : (∀ fd ∈ (run step ops .new).opened,
      fd ∈ (run step ops .new).closed ∨ Referred fd (run step ops .new))
        ↔ ¬ ∃ fd, Lost fd (run step ops .new) := by
    simp only [Lost, not_exists, not_and, not_not]
    exact forall₂_congr fun fd _ => or_iff_not_imp_left
  rw [hlost]
  constructor
  · intro hend
    have hlosing : ∀ op p, Opened p → Permitted op p → ¬ ¬ Abandons op p →
        ∃ fd, Lost fd (step op p) := fun op p hs _ habandons =>
      lost_of_abandons hs (not_not.mp habandons)
    have hstaying : ∀ op p, Opened p → Permitted op p → (∃ fd, Lost fd p) →
        ∃ fd, Lost fd (step op p) := fun op p _ h ⟨fd, hfd⟩ => ⟨fd, lost_stays h hfd⟩
    have hkeeping : ∀ op p, Opened p → Permitted op p → Opened (step op p) :=
      fun op p => opened_keeps
    exact (everyStep_of_unbroken hkeeping hlosing hstaying opened_new hops hend).1
  · intro hkept
    have hinv : ∀ op p, (Opened p ∧ ¬ ∃ fd, Lost fd p) → (Permitted op p ∧ ¬ Abandons op p) →
        Opened (step op p) ∧ ¬ ∃ fd, Lost fd (step op p) := by
      rintro op p ⟨hs, hnone⟩ ⟨h, hno⟩
      refine ⟨opened_keeps hs h, ?_⟩
      rintro ⟨fd, hfd⟩
      rcases lost_step hs h hfd with hbefore | habandons
      · exact hnone ⟨fd, hbefore⟩
      · exact hno habandons
    have hnew : Opened .new ∧ ¬ ∃ fd, Lost fd .new :=
      ⟨opened_new, fun ⟨fd, hfd⟩ => absurd hfd.1 List.not_mem_nil⟩
    exact (everyState_of_invariant hinv hnew (hops.and hkept)).last.2

/-- Two descriptors, and an assignment in between: one of them is closed twice,
    the other one never. -/
theorem nothing_lost_assigned :
    let ops : List Op := [.construct 0 3, .construct 1 4, .copyAssign 0 1, .destroy 0, .destroy 1]
    (run step ops .new).opened = [4, 3] ∧ (run step ops .new).closed = [4, 4]
      ∧ ((∀ fd ∈ (run step ops .new).opened,
            fd ∈ (run step ops .new).closed ∨ Referred fd (run step ops .new))
          ↔ EveryStep step (fun op p => ¬ Abandons op p) ops .new) :=
  ⟨rfl, rfl, nothing_lost_iff (by decide)⟩

end KzrLeak
