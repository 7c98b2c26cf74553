import Kzr.PrimitiveProofs

/-! # Codecs — an encoder, a decoder and the format between them

    A codec bundles an encoder and a decoder of the stream with the format the
    encoder writes, and carries the two facts that tie the code to the format:
    the encoder appends exactly the format's encoding or throws, and the
    decoder, given that encoding, consumes exactly it.

    What the decoder then returns is `received`: it depends on the order of
    evaluation and on the object decoded into, and it need not be the value
    that was sent.  A string keeps the size it had before the decode, so a
    fresh one stays empty; a 64-bit integer may come back with its halves
    exchanged; a vector grows.

    Codecs compose like the members of a class: one after the other (`pair`),
    under other names (`via`), and behind a header (`Parcel.extend`). -/

namespace KzrCodec

open WireFormat LittleEndian KzrMessageStream KzrPrimitive

variable {α β γ : Type}

/-- An encoder and a decoder, the format between them, and what comes of a value that
    is sent from one to the other. -/
structure Codec (α : Type) where
  format   : Format UInt8 α
  put      : α → Put
  get      : ArgOrder → α → Get α
  received : ArgOrder → α → α → α
  encodes  : ∀ a, Encodes (put a) (format.encode a)
  reads    : ∀ order old a, Reads (get order old) (format.encode a) (received order old a)

/-! ## Primitive codecs -/

/-- `MessageStream`'s one byte. -/
def uint8 : Codec UInt8 where
  format := u8
  put := encodeUInt8
  get := fun _ _ => decodeUInt8
  received := fun _ _ v => v
  encodes := encodes_uint8
  reads := fun _ _ v => reads_uint8 v

/-- Two bytes, the low one first. -/
def uint16 : Codec UInt16 where
  format := u16
  put := encodeUInt16
  get := fun _ _ => decodeUInt16
  received := fun _ _ v => v
  encodes := encodes_uint16
  reads := fun _ _ v => reads_uint16 v

/-- Two halves of 16 bits, the low one first. -/
def uint32 : Codec UInt32 where
  format := u32
  put := encodeUInt32
  get := fun _ _ => decodeUInt32
  received := fun _ _ v => v
  encodes := encodes_uint32
  reads := fun _ _ v => reads_uint32 v

/-- Two halves of 32 bits, which the decoder reads in either order. -/
def uint64 : Codec UInt64 where
  format := u64
  put := encodeUInt64
  get := fun order _ => decodeUInt64 order
  received := fun order _ v => reread order v
  encodes := encodes_uint64
  reads := fun order _ v => reads_uint64 order v

/-- A string, decoded into the size the old one has. -/
def string : Codec Bytes where
  format := stringFormat
  put := encodeString
  get := fun _ old => decodeString old
  received := fun _ old s => storeAt old s
  encodes := encodes_string
  reads := fun _ old s => reads_string old s

/-- A vector whose elements start out as `new`. -/
def vector (c : Codec α) (new : α) : Codec (List α) where
  format := vectorFormat c.format
  put := encodeVector c.put
  get := fun order old => decodeVector new (c.get order) old
  received := fun order old as => old ++ as.map (c.received order new)
  encodes := encodes_vector c.encodes
  reads := fun order old as => reads_vector (c.reads order new) as old

/-! ## Composition -/

/-- One field, then another. -/
def Codec.pair (c : Codec α) (d : Codec β) : Codec (α × β) where
  format := c.format.pair d.format
  put := fun p => do
    c.put p.1
    d.put p.2
  get := fun order old => do
    let a ← c.get order old.1
    let b ← d.get order old.2
    pure (a, b)
  received := fun order old p => (c.received order old.1 p.1, d.received order old.2 p.2)
  encodes := fun p => (c.encodes p.1).seq (d.encodes p.2)
  reads := fun order old p =>
    (c.reads order old.1 p.1).bind
      ((d.reads order old.2 p.2).last (fun b => (c.received order old.1 p.1, b)))

/-- The same bytes for a type in bijection with this one. -/
def Codec.via (c : Codec γ) (fields : α → γ) (make : γ → α)
    (make_fields : ∀ a, make (fields a) = a) (fields_make : ∀ t, fields (make t) = t) :
    Codec α where
  format := c.format.via fields make make_fields (fun t _ _ => fields_make t)
  put := fun a => c.put (fields a)
  get := fun order old => do
    let t ← c.get order (fields old)
    pure (make t)
  received := fun order old a => make (c.received order (fields old) (fields a))
  encodes := fun a => c.encodes (fields a)
  reads := fun order old a => (c.reads order (fields old) (fields a)).last make

end KzrCodec
