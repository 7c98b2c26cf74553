import Kzr.StringStreamProofs
import Kzr.LittleEndianProofs
import Mathlib.Data.Nat.Bitwise

/-! # The message stream — primitive encoders and decoders

    A `MessageStream` wraps a string stream of bytes.  Encoders put bytes one
    at a time and may throw; decoders read into uninitialised temporaries and
    never look at the flags, so a read past the end hands out whatever the
    temporaries held.  Those leftovers are an arbitrary supply of bytes,
    `indeterminate`, consumed in the order the program looks at them.

    The two operands of `build(decode<uint32_t>(), decode<uint32_t>())` may be
    evaluated in either order; `ArgOrder` is that choice.

    Every encoder is specified by one relation, `Encodes p e`: on a writable
    stream `p` appends exactly the bytes `e`, or throws when there are none.
    Every decoder is specified by `Reads d e a` — given the bytes `e` it
    consumes exactly those and returns `a`. -/

namespace KzrMessageStream

open CharStream WireFormat LittleEndian

variable {α β : Type}

/-- The contents of a `std::string`. -/
abbrev Bytes := List UInt8

/-- An exception is the text it was thrown with. -/
structure Exception where
  message : String
deriving DecidableEq, Repr

/-- A tag that names no request. -/
def notag : UInt16 := 0xFFFF

/-- The stream, and the bytes that uninitialised temporaries will turn out to
    hold. -/
structure MessageStream where
  storage       : StringStream UInt8
  indeterminate : Nat → UInt8

/-- A newly constructed stream. -/
def MessageStream.new (indeterminate : Nat → UInt8) : MessageStream :=
  ⟨.empty, indeterminate⟩

/-- What an encoder does to the stream it is given. -/
abbrev Put := EStateM Exception MessageStream Unit

/-- What a decoder does; none of them throws. -/
abbrev Get (α : Type) := StateM MessageStream α

/-- The evaluation order of the two arguments of a call. -/
inductive ArgOrder where
  | leftFirst | rightFirst
deriving DecidableEq, Repr

/-! ## build -/

/-- `build(lower, upper)` of two bytes. -/
def build8 (lower upper : UInt8) : UInt16 :=
  (upper.toUInt16 <<< 8) ||| lower.toUInt16

/-- `build(lower, upper)` of two 16-bit halves. -/
def build16 (lower upper : UInt16) : UInt32 :=
  (upper.toUInt32 <<< 16) ||| lower.toUInt32

/-- `build` of four bytes, by way of two halves. -/
def build8x4 (lowest lower high highest : UInt8) : UInt32 :=
  build16 (build8 lowest lower) (build8 high highest)

/-- `build(lower, upper)` of two 32-bit halves. -/
def build32 (lower upper : UInt32) : UInt64 :=
  (upper.toUInt64 <<< 32) ||| lower.toUInt64

/-! ## Encoders -/

/-- `_storage.put(value)`. -/
def storagePut (value : UInt8) : Put :=
  modify fun msg => { msg with storage := msg.storage.put value }

/-- `encode(uint8_t)`: one `put`. -/
def encodeUInt8 (value : UInt8) : Put := storagePut value

/-- `encode(uint16_t)`: the low byte, then the high one. -/
def encodeUInt16 (value : UInt16) : Put := do
  storagePut value.toUInt8
  storagePut (value >>> 8).toUInt8

/-- `encode(uint32_t)`: the low half, then the high one. -/
def encodeUInt32 (value : UInt32) : Put := do
  encodeUInt16 value.toUInt16
  encodeUInt16 (value >>> 16).toUInt16

/-- `encode(uint64_t)`: the low half, then the high one. -/
def encodeUInt64 (value : UInt64) : Put := do
  encodeUInt32 value.toUInt32
  encodeUInt32 (value >>> 32).toUInt32

/-- Encode one element after the other. -/
def encodeElements (encodeElement : α → Put) : List α → Put
  | []          => pure ()
  | c :: collec => do
      encodeElement c
      encodeElements encodeElement collec

/-- Strings carry a 16-bit length; a longer one is refused before any byte. -/
def encodeString (value : Bytes) : Put :=
  let len := UInt16.ofNat value.length
  -- the conversion wraps, and is compared with the length it came from
  if len.toNat ≠ value.length then
    throw ⟨"Attempted to encode a string of " ++ toString value.length
      ++ " characters when " ++ toString (0 - 1 : UInt16).toNat ++ " is the maximum allowed!"⟩
  else do
    encodeUInt16 len
    encodeElements encodeUInt8 value

/-- `operator<<` for `std::vector<T>`. -/
def encodeVector (encodeElement : α → Put) (collec : List α) : Put :=
  let len := UInt16.ofNat collec.length
  if len.toNat ≠ collec.length then
    throw ⟨"Attempted to encode a std::vector<T> of " ++ toString collec.length
      ++ " elements when " ++ toString (0 - 1 : UInt16).toNat ++ " is the maximum allowed!"⟩
  else do
    encodeUInt16 len
    encodeElements encodeElement collec

/-! ## Decoders -/

/-- `char t; _storage.get(t);` -/
def storageGet : Get UInt8 := fun msg =>
  match msg.storage.get with
  | (some c, storage) => (c, { msg with storage := storage })
  | (none, storage)   =>
      -- `t` was never assigned
      (msg.indeterminate 0,
        { storage := storage, indeterminate := fun k => msg.indeterminate (k + 1) })

/-- `char t[n]; _storage.read(t, n);` — the bytes the read did not reach are
    indeterminate. -/
def storageRead (n : Nat) : Get (Fin n → UInt8) := fun msg =>
  match msg.storage.read n with
  | (got, storage) =>
      (fun i => if h : i.val < got.length then got[i.val]
          else msg.indeterminate (i.val - got.length),
        { storage := storage
          indeterminate := fun k => msg.indeterminate (k + (n - got.length)) })

/-- `decode<uint8_t>()`: one `get`. -/
def decodeUInt8 : Get UInt8 := storageGet

/-- `decode<uint16_t>()`: two bytes at once. -/
def decodeUInt16 : Get UInt16 := do
  let temporaryStorage ← storageRead 2
  pure (build8 (temporaryStorage 0) (temporaryStorage 1))

/-- `decode<uint32_t>()`: four bytes at once. -/
def decodeUInt32 : Get UInt32 := do
  let temporaryStorage ← storageRead 4
  pure (build8x4 (temporaryStorage 0) (temporaryStorage 1)
    (temporaryStorage 2) (temporaryStorage 3))

/-- `decode<uint64_t>()`: both halves are read within one call, so in either order. -/
def decodeUInt64 (order : ArgOrder) : Get UInt64 :=
  match order with
  | .leftFirst => do
      let lower ← decodeUInt32
      let upper ← decodeUInt32
      pure (build32 lower upper)
  | .rightFirst => do
      let upper ← decodeUInt32
      let lower ← decodeUInt32
      pure (build32 lower upper)

/-- Store `got` at the front of a string without changing its size: what
    reaches past the size is not part of the string. -/
def storeAt (data got : Bytes) : Bytes :=
  got.take data.length ++ data.drop got.length

/-- `data.reserve(len); _storage.read(data.data(), len);` -/
def decodeString (data : Bytes) : Get Bytes := do
  let len ← decodeUInt16
  fun msg =>
    match msg.storage.read len.toNat with
    -- `reserve` makes room behind the string and leaves its size alone
    | (got, storage) => (storeAt data got, { msg with storage := storage })

/-- The loop of `operator>>` for `std::vector<T>`: grow by a new element, then
    decode into it. -/
def decodeElements (newElement : α) (decodeElement : α → Get α) : Nat → List α → Get (List α)
  | 0, collec       => pure collec
  | len + 1, collec => do
      let back ← decodeElement newElement
      decodeElements newElement decodeElement len (collec ++ [back])

/-- `operator>>` for `std::vector<T>`. -/
def decodeVector (newElement : α) (decodeElement : α → Get α) (collec : List α) :
    Get (List α) := do
  let len ← decodeUInt16
  decodeElements newElement decodeElement len.toNat collec

/-! ## The remaining operations of the class -/

/-- `str()`. -/
def MessageStream.str (msg : MessageStream) : Bytes := msg.storage.str

/-- `str(input)`. -/
def MessageStream.setStr (msg : MessageStream) (input : Bytes) : MessageStream :=
  { msg with storage := msg.storage.setStr input }

/-- `reset()`. -/
def MessageStream.reset (msg : MessageStream) : MessageStream :=
  { msg with storage := msg.storage.setStr [] }

/-- `write(str)`: only `badbit` is looked at. -/
def write (str : Bytes) : Put := do
  modify fun msg => { msg with storage := msg.storage.write str }
  -- a stream with `failbit` alone up has dropped the characters unnoticed
  if (← get).storage.bad then
    throw ⟨"bad bit set during write!"⟩

/-- `read(s, count)`: the characters stored at `s`, and their number.  The one
    operation that looks at every flag, and the one that lowers them. -/
def read (count : Nat) : Get (Bytes × Nat) := fun msg =>
  match msg.storage.read count with
  | (got, storage) =>
      if storage.fail || storage.eof then
        ((got, got.length), { msg with storage := storage.clear })
      else ((got, count), { msg with storage := storage })

/-- `peek()`: the character as an `int`, `-1` at the end, is compared with the
    `bool` that `eof()` returns. -/
def peek : Get (Option UInt8) := fun msg =>
  match msg.storage.peek with
  | (c, storage) =>
      let result : Int := match c with
        | some b => b.toNat
        | none   => -1
      let eof : Int := if storage.eof then 1 else 0
      -- 0 equals a lowered `eof()`, so a zero byte is not seen; -1 equals neither
      (if result ≠ eof then some (UInt8.ofInt result) else none, { msg with storage := storage })

/-! ## Streams up to their bookkeeping -/

/-- No flag is up. -/
def MessageStream.good (msg : MessageStream) : Bool := msg.storage.good

/-- The bytes still to be decoded. -/
def MessageStream.unread (msg : MessageStream) : Bytes := msg.storage.unread

/-- Output appends. -/
def MessageStream.Writable (msg : MessageStream) : Prop := msg.storage.Writable

/-- Put bytes behind the contents. -/
def MessageStream.append (msg : MessageStream) (bs : Bytes) : MessageStream :=
  { msg with storage := msg.storage.append bs }

/-- Pass so many unread bytes. -/
def MessageStream.advance (msg : MessageStream) (n : Nat) : MessageStream :=
  { msg with storage := msg.storage.advance n }

/-- A new stream is writable. -/
theorem writable_new (indeterminate : Nat → UInt8) :
    (MessageStream.new indeterminate).Writable := writable_empty

theorem writable_append {msg : MessageStream} (h : msg.Writable) (bs : Bytes) :
    (msg.append bs).Writable := CharStream.writable_append h bs

theorem append_nil {msg : MessageStream} (h : msg.Writable) : msg.append [] = msg := by
  simp only [MessageStream.append, CharStream.append_nil h]

theorem append_append (msg : MessageStream) (as bs : Bytes) :
    (msg.append as).append bs = msg.append (as ++ bs) := by
  simp only [MessageStream.append, CharStream.append_append]

theorem str_append (msg : MessageStream) (bs : Bytes) :
    (msg.append bs).str = msg.str ++ bs := rfl

/-- What is appended is unread, behind what was. -/
theorem unread_append (msg : MessageStream) (bs : Bytes) :
    (msg.append bs).unread = msg.unread ++ bs := CharStream.unread_append msg.storage bs

@[simp] theorem good_append (msg : MessageStream) (bs : Bytes) :
    (msg.append bs).good = msg.good := rfl

theorem advance_zero (msg : MessageStream) : msg.advance 0 = msg := by
  simp only [MessageStream.advance, CharStream.advance_zero]

theorem advance_advance (msg : MessageStream) (m n : Nat) :
    (msg.advance m).advance n = msg.advance (m + n) := by
  simp only [MessageStream.advance, CharStream.advance_advance]

@[simp] theorem good_advance (msg : MessageStream) (n : Nat) :
    (msg.advance n).good = msg.good := rfl

@[simp] theorem unread_advance (msg : MessageStream) (n : Nat) :
    (msg.advance n).unread = msg.unread.drop n := CharStream.unread_advance msg.storage n

/-- Unlike a decode, a `read` leaves no flag up. -/
theorem good_read (count : Nat) (msg : MessageStream) : (read count msg).2.good = true := by
  simp only [read]
  by_cases hflag : ((msg.storage.read count).2.fail || (msg.storage.read count).2.eof) = true
  · rw [if_pos hflag]
    rfl
  · rw [if_neg hflag]
    simp only [StringStream.fail, StringStream.eof, Bool.or_eq_true, not_or,
      Bool.not_eq_true] at hflag
    obtain ⟨⟨hfail, hbad⟩, heof⟩ := hflag
    show (msg.storage.read count).2.good = true
    simp [StringStream.good, hfail, hbad, heof]

end KzrMessageStream
