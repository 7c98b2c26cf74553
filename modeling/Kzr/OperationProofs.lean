import Mathlib.Tactic.Common

/-! # Operations and their two forms

    An `Operation` is one byte on the wire.  The protocol kinds occupy the
    codes 100 to 127: each kind has a transmit form on an even code and a
    receive form on the odd code after it.  Any byte can be cast to an
    `Operation`, so the enumeration is a wrapped byte with named values.

    `convert` forgets the direction, `translateConcept` chooses one, and the
    parity tests `isRequest` and `isResponse` look at the code alone.
    `expectedResponseKind` is what a request is to be answered with. -/

namespace KzrOperation

/-- The operation type with the transmit/receive information stripped away. -/
inductive ConceptualOperation where
  | Undefined | Version | Auth | Attach | Error | Flush | Walk | Open
  | Create | Read | Write | Clunk | Remove | Stat | WStat
deriving DecidableEq, Repr

/-- Which side of the conversation a message class belongs to. -/
inductive MessageDirection where
  | Request | Response
deriving DecidableEq, Repr

/-- `enum class Operation : uint8_t`. -/
structure Operation where
  code : UInt8
deriving DecidableEq, Repr

@[match_pattern] def Operation.TVersion : Operation := ⟨100⟩
@[match_pattern] def Operation.RVersion : Operation := ⟨101⟩
@[match_pattern] def Operation.TAuth : Operation := ⟨102⟩
@[match_pattern] def Operation.RAuth : Operation := ⟨103⟩
@[match_pattern] def Operation.TAttach : Operation := ⟨104⟩
@[match_pattern] def Operation.RAttach : Operation := ⟨105⟩
@[match_pattern] def Operation.TError : Operation := ⟨106⟩
@[match_pattern] def Operation.RError : Operation := ⟨107⟩
@[match_pattern] def Operation.TFlush : Operation := ⟨108⟩
@[match_pattern] def Operation.RFlush : Operation := ⟨109⟩
@[match_pattern] def Operation.TWalk : Operation := ⟨110⟩
@[match_pattern] def Operation.RWalk : Operation := ⟨111⟩
@[match_pattern] def Operation.TOpen : Operation := ⟨112⟩
@[match_pattern] def Operation.ROpen : Operation := ⟨113⟩
@[match_pattern] def Operation.TCreate : Operation := ⟨114⟩
@[match_pattern] def Operation.RCreate : Operation := ⟨115⟩
@[match_pattern] def Operation.TRead : Operation := ⟨116⟩
@[match_pattern] def Operation.RRead : Operation := ⟨117⟩
@[match_pattern] def Operation.TWrite : Operation := ⟨118⟩
@[match_pattern] def Operation.RWrite : Operation := ⟨119⟩
@[match_pattern] def Operation.TClunk : Operation := ⟨120⟩
@[match_pattern] def Operation.RClunk : Operation := ⟨121⟩
@[match_pattern] def Operation.TRemove : Operation := ⟨122⟩
@[match_pattern] def Operation.RRemove : Operation := ⟨123⟩
@[match_pattern] def Operation.TStat : Operation := ⟨124⟩
@[match_pattern] def Operation.RStat : Operation := ⟨125⟩
@[match_pattern] def Operation.TWStat : Operation := ⟨126⟩
/-- No transmit form. -/
@[match_pattern] def Operation.RWStat : Operation := ⟨127⟩
def Operation.TBad : Operation := ⟨0xFE⟩
/-- No receive form, and what a peek sees where there is no byte. -/
def Operation.RBad : Operation := ⟨0xFF⟩

/-- The kind of an operation, `Undefined` for every byte outside the table. -/
def convert (op : Operation) : ConceptualOperation :=
  match op with
  | .TVersion | .RVersion => .Version
  | .TAuth    | .RAuth    => .Auth
  | .TAttach  | .RAttach  => .Attach
  | .TError   | .RError   => .Error
  | .TFlush   | .RFlush   => .Flush
  | .TWalk    | .RWalk    => .Walk
  | .TOpen    | .ROpen    => .Open
  | .TCreate  | .RCreate  => .Create
  | .TRead    | .RRead    => .Read
  | .TWrite   | .RWrite   => .Write
  | .TClunk   | .RClunk   => .Clunk
  | .TRemove  | .RRemove  => .Remove
  | .TStat    | .RStat    => .Stat
  | .TWStat   | .RWStat   => .WStat
  | _                     => .Undefined

/-- The transmit form of a kind. -/
def getTMessageForm : ConceptualOperation → Operation
  | .Version   => .TVersion
  | .Auth      => .TAuth
  | .Attach    => .TAttach
  | .Error     => .TError
  | .Flush     => .TFlush
  | .Walk      => .TWalk
  | .Open      => .TOpen
  | .Create    => .TCreate
  | .Read      => .TRead
  | .Write     => .TWrite
  | .Clunk     => .TClunk
  | .Remove    => .TRemove
  | .Stat      => .TStat
  | .WStat     => .TWStat
  | .Undefined => .TBad

/-- The receive form of a kind. -/
def getRMessageForm : ConceptualOperation → Operation
  | .Version   => .RVersion
  | .Auth      => .RAuth
  | .Attach    => .RAttach
  | .Error     => .RError
  | .Flush     => .RFlush
  | .Walk      => .RWalk
  | .Open      => .ROpen
  | .Create    => .RCreate
  | .Read      => .RRead
  | .Write     => .RWrite
  | .Clunk     => .RClunk
  | .Remove    => .RRemove
  | .Stat      => .RStat
  | .WStat     => .RWStat
  | .Undefined => .RBad

/-- The lowest bit is down. -/
def isEven (value : UInt8) : Bool := (value &&& 1) == 0

/-- The lowest bit is up. -/
def isOdd (value : UInt8) : Bool := (value &&& 1) != 0

/-- A transmit form, going by the code alone. -/
def isRequest (op : Operation) : Bool := isEven op.code

/-- A receive form, going by the code alone. -/
def isResponse (op : Operation) : Bool := isOdd op.code

/-- `translateConcept`: the raw operation of a message class. -/
def translateConcept (op : ConceptualOperation) (dir : MessageDirection) : Operation :=
  if op = .Undefined then
    if dir = .Request then .TBad else .RBad
  else
    if dir = .Request then getTMessageForm op else getRMessageForm op

/-- What a request is answered with, `RBad` for everything that is not one. -/
def expectedResponseKind (op : Operation) : Operation :=
  if isResponse op then
    .RBad
  else
    -- must be a transmit message
    match op with
    | .TVersion => .RVersion
    | .TAuth    => .RAuth
    | .TAttach  => .RAttach
    | .TError   => .RError
    | .TFlush   => .RFlush
    | .TWalk    => .RWalk
    | .TOpen    => .ROpen
    | .TCreate  => .RCreate
    | .TRead    => .RRead
    | .TWrite   => .RWrite
    | .TClunk   => .RClunk
    | .TRemove  => .RRemove
    | .TStat    => .RStat
    | .TWStat   => .RWStat
    | _         => .RBad

/-! ## How the three functions fit together -/

/-- The direction an operation's parity announces. -/
def directionOf (op : Operation) : MessageDirection :=
  if isRequest op then .Request else .Response

/-- Every operation is one or the other. -/
theorem isResponse_eq (op : Operation) : isResponse op = !isRequest op := rfl

/-- Choosing a direction keeps the kind. -/
theorem convert_translateConcept (k : ConceptualOperation) (dir : MessageDirection) :
    convert (translateConcept k dir) = k := by
  cases k <;> cases dir <;> rfl

/-- Choosing a direction announces that direction. -/
theorem directionOf_translateConcept (k : ConceptualOperation) (dir : MessageDirection) :
    directionOf (translateConcept k dir) = dir := by
  cases k <;> cases dir <;> rfl

/-- **THE TABLE IS A BIJECTION**: a byte in the table is the form of its kind in
    the direction of its parity. -/
theorem translateConcept_convert {op : Operation} (h : convert op ≠ .Undefined) :
    translateConcept (convert op) (directionOf op) = op := by
  unfold convert at h ⊢
  split at h <;> first | rfl | exact absurd rfl h

/-- No operation of the table has the code zero, which `peek` cannot see. -/
theorem code_ne_zero {op : Operation} (h : convert op ≠ .Undefined) : op.code ≠ 0 := by
  intro h0
  obtain ⟨c⟩ := op
  have hc : c = 0 := h0
  subst hc
  exact h rfl

/-- The direction is that of a request exactly for the even codes. -/
theorem directionOf_eq_request {op : Operation} :
    directionOf op = .Request ↔ isRequest op = true := by
  unfold directionOf
  cases isRequest op <;> simp

theorem directionOf_eq_response {op : Operation} :
    directionOf op = .Response ↔ isResponse op = true := by
  unfold directionOf
  rw [isResponse_eq]
  cases isRequest op <;> simp

/-! ## Requests and what they are answered with -/

end KzrOperation
