import Kzr.AcceptanceProofs
import Kzr.ForwardProofs
import Kzr.PeekProofs
import Kzr.RefusalProofs
import Kzr.SimulationProofs

/-! # The message stream is a pipe that can get stuck

    Between the operations of the class a stream is a buffer, two positions and
    three flags.  As long as its contents are only put there and never replaced
    by others, this comes down to much less: the bytes still to be taken, or
    that nothing flows any more.  A pipe gets stuck when more is asked of it
    than it holds, or when it is looked into empty; then all that is put into it
    is lost, without a word, until a `read` comes along.

    `Pipe.call` says what each call does to a pipe and what it answers.  An integer
    or an interaction that the pipe does not hold to its end is made up to one that
    begins with what is there; every other answer is fixed.  The stream is shown to
    follow the pipe through every run. -/

namespace KzrPipe

open Drafting WireFormat LittleEndian KzrOperation KzrMessageStream KzrPrimitive KzrIntegerCodec
open KzrMessage KzrInteraction KzrInteractionCodec KzrForward KzrPeek KzrRefusal KzrVerdict
open KzrAcceptance KzrCompletion
open KzrQueue (Op Outcome step output writeAll integerBytes size)
open KzrEncodable (visit draft writeAll_nil)
open KzrNineP (str)
open Simulation

/-! ## Calls -/

/-- Everything but the call that replaces the contents by other ones. -/
def Flows : KzrPeek.Call → Prop
  | .op (.setStr _) => False
  | _               => True

/-- The calls of the class and the operators of interactions. -/
inductive Call where
  | own (c : KzrPeek.Call) (flows : Flows c)
  | read (count : Nat)
  | encodeInteraction (i : Interaction)
  | decodeInteraction (old : Interaction)

/-- What a call hands back. -/
inductive Answer where
  | own (r : KzrPeek.Result)
  | got (s : Bytes) (count : Nat)
  | decoded (i : Interaction)

/-- What an operation of the queue answers, and what the operators of interactions
    do that hand nothing back. -/
def Answer.of (outcome : Outcome) : Answer := .own (.of outcome)

/-- What a call answers and what it leaves. -/
def call (order : ArgOrder) : Call → MessageStream → Answer × MessageStream
  | .own c _, msg               =>
      match KzrPeek.call order c msg with
      | (r, msg') => (.own r, msg')
  | .read count, msg            =>
      match KzrMessageStream.read count msg with
      | ((s, n), msg') => (.got s n, msg')
  | .encodeInteraction i, msg   =>
      match output (KzrInteraction.encodeInteraction i) msg with
      | (outcome, msg') => (.of outcome, msg')
  | .decodeInteraction old, msg =>
      match KzrInteraction.decodeInteraction order (msg, old) with
      | .ok () (msg', i)    => (.decoded i, msg')
      | .error ex (msg', _) => (.of (.threw ex), msg')

/-! ## The pipe -/

/-- The bytes still to be taken, or that nothing flows any more. -/
inductive Pipe where
  | flowing (q : Bytes)
  | stuck
deriving DecidableEq

/-- What can be seen of it. -/
def Pipe.sees : Pipe → Bytes
  | .flowing q => q
  | .stuck     => []

/-- Bytes join the end, or are lost. -/
def Pipe.put (bs : Bytes) : Pipe → Pipe
  | .flowing q => .flowing (q ++ bs)
  | .stuck     => .stuck

/-- Bytes are taken off the front; when there are too few, the pipe gets stuck. -/
def Pipe.take (n : Nat) : Pipe → Pipe
  | .flowing q => if n ≤ q.length then .flowing (q.drop n) else .stuck
  | .stuck     => .stuck

/-- Looking into an empty pipe gets it stuck. -/
def Pipe.look (p : Pipe) : Pipe := if p.sees = [] then .stuck else p

/-- The number some bytes spell. -/
def number : Width → Bytes → Value
  | .u8, bs  => .u8 (UInt8.ofNat (value bs))
  | .u16, bs => .u16 (UInt16.ofNat (value bs))
  | .u32, bs => .u32 (UInt32.ofNat (value bs))
  | .u64, bs => .u64 (UInt64.ofNat (value bs))

/-- How many characters a string announces. -/
def announced (q : Bytes) : Nat := if 2 ≤ q.length then value (q.take 2) else 0

/-- What a call may answer. -/
inductive Expected where
  | exactly (a : Answer)
  /-- an integer of a width of which only this is there -/
  | cutNumber (w : Width) (there : Bytes)
  /-- an interaction of which only this is there -/
  | cutMessage (there : Bytes)

/-- An answer of the operations of the queue. -/
def Expected.of (outcome : Outcome) : Expected := .exactly (.of outcome)

/-- What an operation of the queue does to a pipe. -/
def Pipe.op (order : ArgOrder) : (op : Op) → Flows (.op op) → Pipe → Expected × Pipe
  | .encode v, _, p          => (.of .done, p.put (integerBytes v))
  | .encodeString s, _, p    =>
      match stringRefusal s with
      | none    => (.of .done, p.put (str s))
      | some ex => (.of (.threw ex), p)
  | .write s, _, p           => (.of .done, p.put s)
  | .decode w, _, p          =>
      (if size w ≤ p.sees.length then
          .of (.value (received order (number w (p.sees.take (size w)))))
        else .cutNumber w p.sees, p.take (size w))
  | .decodeString data, _, p =>
      (.of (.text (storeAt data ((p.sees.drop 2).take (announced p.sees)))),
        p.take (2 + announced p.sees))
  | .setStr _, flows, _      => flows.elim
  | .reset, _, .flowing _    => (.of .done, .flowing [])
  | .reset, _, .stuck        => (.of .done, .stuck)

/-- What a call does to a pipe, and what it may answer. -/
def Pipe.call (order : ArgOrder) : Call → Pipe → Expected × Pipe
  | .own (.op op) flows, p  => p.op order op flows
  | .own .peek _, p         =>
      (.exactly (.own (.peeked (if p.sees.headD 0xFF = 0 then none
        else some (p.sees.headD 0xFF)))), p.look)
  -- the one call that gets a pipe to flow again
  | .read count, p          =>
      (.exactly (.got (p.sees.take count) (min count p.sees.length)),
        .flowing (p.sees.drop count))
  | .encodeInteraction i, p =>
      match visit refusal i with
      | none    => (.of .done, p.put (visit draft i).written)
      -- what stands in front of the field over its limit has been put
      | some ex => (.of (.threw ex), p.put (visit draft i).written)
  | .decodeInteraction _, p =>
      match verdict p.sees with
      | .rejected ex    => (.of (.threw ex), p.look)
      | .message i rest =>
          (.exactly (.decoded (KzrInteractionCodec.received order i)), .flowing rest)
      | .cut            => (.cutMessage p.sees, .stuck)

/-! ## Streams that are pipes -/

/-- The stream holds what the pipe says: output appends and these bytes are
    unread, or a flag is up and nothing is unread; and the put position is at the
    end in any case. -/
def Holds : Pipe → MessageStream → Prop
  | .flowing q, msg => msg.Writable ∧ msg.unread = q
  | .stuck, msg     => Spent msg ∧ msg.storage.ppos = msg.str.length

/-- The put position is at the end, whatever the pipe says. -/
theorem Holds.at_end {p : Pipe} {msg : MessageStream} (h : Holds p msg) :
    msg.storage.ppos = msg.str.length := by
  cases p with
  | flowing q => exact h.1.at_end
  | stuck => exact h.2

theorem Holds.unbroken {p : Pipe} {msg : MessageStream} (h : Holds p msg) :
    msg.storage.bad = false := by
  cases p with
  | flowing q => exact unbroken_of_good h.1.good
  | stuck => exact h.1.unbroken

/-- What can be seen of the stream can be seen of the pipe. -/
theorem Holds.seen {p : Pipe} {msg : MessageStream} (h : Holds p msg) :
    KzrVerdict.seen msg = p.sees := by
  cases p with
  | flowing q =>
      have hg : msg.good = true := h.1.good
      rw [KzrVerdict.seen, if_pos hg, h.2]
      rfl
  | stuck =>
      rw [KzrVerdict.seen, h.1.flagged]
      rfl

theorem Holds.unread {p : Pipe} {msg : MessageStream} (h : Holds p msg) :
    msg.unread = p.sees := by
  cases p with
  | flowing q => exact h.2
  | stuck => exact h.1.empty

/-- There is something to be seen only in a pipe that flows. -/
theorem Holds.good {p : Pipe} {msg : MessageStream} (h : Holds p msg) (hp : p.sees ≠ []) :
    msg.good = true := by
  cases p with
  | flowing q => exact h.1.good
  | stuck => exact absurd rfl hp

/-- A stream that has been read holds what is unread, or is stuck when a flag has
    gone up with nothing unread. -/
theorem Holds.forward {p : Pipe} {msg msg' : MessageStream} (h : Holds p msg)
    (hf : Forward msg.storage msg'.storage) :
    (msg'.good = true → Holds (.flowing msg'.unread) msg')
      ∧ (msg'.good = false → msg'.unread = [] → Holds .stuck msg') := by
  have hcontents : msg'.str = msg.str := hf.contents
  have hend : msg'.storage.ppos = msg'.str.length := by rw [hf.put, h.at_end, hcontents]
  exact ⟨fun hg => ⟨⟨hg, hend⟩, rfl⟩,
    fun hg hu => ⟨⟨hg, hf.broken.trans h.unbroken, hu⟩, hend⟩⟩

/-! ## Output -/

end KzrPipe
