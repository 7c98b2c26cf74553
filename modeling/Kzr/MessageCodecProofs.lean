import Kzr.CodecProofs
import Kzr.MessageProofs

/-! # A codec for every message class

    Each mixin and each message class gets the codec its `encode` and `decode`
    are, composed from the codecs of its members in the order the encoder
    writes them.  A message class extends the codec of its parent, and with it
    what the dispatchers rely on: its encoding begins with the byte of its
    operation, and decoding brings the header back.

    That these codecs are the classes' own `encode` and `decode` is
    definitional; it is stated for all classes at once where the variants are
    put together. -/

namespace KzrMessageCodec

open WireFormat LittleEndian KzrOperation KzrMessageStream KzrPrimitive KzrCodec KzrMessage

variable {α β γ : Type} (kind : ConceptualOperation) (dir : MessageDirection)

/-! ## Mixins -/

/-- Three integers. -/
def qid : Codec Qid :=
  (uint8.pair (uint32.pair uint64)).via
    (fun m => (m.type, m.version, m.path))
    (fun t => { type := t.1, version := t.2.1, path := t.2.2 })
    (fun _ => rfl) (fun _ => rfl)

/-- The mixin `HasQid`. -/
def hasQid : Codec HasQid :=
  qid.via HasQid.qid HasQid.mk (fun _ => rfl) (fun _ => rfl)

/-- The mixin `HasName`. -/
def hasName : Codec HasName :=
  string.via HasName.name HasName.mk (fun _ => rfl) (fun _ => rfl)

/-- The mixin `HasFid`. -/
def hasFid : Codec HasFid :=
  uint32.via HasFid.fid HasFid.mk (fun _ => rfl) (fun _ => rfl)

/-- The mixin `HasCount`. -/
def hasCount : Codec HasCount :=
  uint32.via HasCount.count HasCount.mk (fun _ => rfl) (fun _ => rfl)

/-- The mixin `HasOffset`. -/
def hasOffset : Codec HasOffset :=
  uint64.via HasOffset.offset HasOffset.mk (fun _ => rfl) (fun _ => rfl)

/-- A 32-bit count and so many bytes. -/
def hasDataFormat : Format UInt8 HasDataStorage :=
  dataFormat.via HasDataStorage.data HasDataStorage.mk (fun _ => rfl) (fun _ _ _ => rfl)

/-- A data block is encoded as its format has it, or refused for its length. -/
theorem encodes_hasData (m : HasDataStorage) : Encodes m.encode (hasDataFormat.encode m) := by
  refine encodes_checked _ ofNat32_toNat fun hn => ?_
  have hseq := (encodes_uint32 (UInt32.ofNat m.data.length)).seq
    (encodes_elements m.data fun c _ => encodes_uint8 c)
  rwa [u32_encode_ofNat hn] at hseq

/-- The bytes of a data block join those that were there. -/
theorem reads_hasData (old m : HasDataStorage) :
    Reads old.decode (hasDataFormat.encode m) { data := old.data ++ m.data } := by
  refine Reads.of_encodes fun hsome => ?_
  have hn : m.data.length < 4294967296 := lt_of_uint_encode (Option.eq_some_of_isSome hsome)
  refine (reads_count32 m.data.length).bind ?_
  rw [ofNat32_toNat.mpr hn]
  have h : Reads (decodeElements 0 (fun _ => decodeUInt8) m.data.length old.data)
      (encodeEach u8.encode m.data) (old.data ++ m.data.map id) :=
    reads_elements reads_uint8 m.data old.data
  rw [List.map_id] at h
  exact h.last _

/-- The mixin `HasDataStorage`. -/
def hasData : Codec HasDataStorage where
  format := hasDataFormat
  put := HasDataStorage.encode
  get := fun _ old => old.decode
  received := fun _ old m => { data := old.data ++ m.data }
  encodes := encodes_hasData
  reads := fun _ old m => reads_hasData old m

/-! ## Stat -/

/-- The members of a `Stat` behind its length. -/
def statMembers : Codec Stat :=
  (uint16.pair (uint32.pair (hasQid.pair (uint32.pair (uint32.pair (uint32.pair
    (uint64.pair (hasName.pair (string.pair (string.pair string)))))))))).via
    (fun m => (m.type, m.dev, m.toHasQid, m.mode, m.atime, m.mtime, m.length,
      m.toHasName, m.uid, m.gid, m.muid))
    (fun t => { type := t.1, dev := t.2.1, toHasQid := t.2.2.1, mode := t.2.2.2.1,
                atime := t.2.2.2.2.1, mtime := t.2.2.2.2.2.1, length := t.2.2.2.2.2.2.1,
                toHasName := t.2.2.2.2.2.2.2.1, uid := t.2.2.2.2.2.2.2.2.1,
                gid := t.2.2.2.2.2.2.2.2.2.1, muid := t.2.2.2.2.2.2.2.2.2.2 })
    (fun _ => rfl) (fun _ => rfl)

/-- The members, behind the number of bytes they take. -/
def statFormat : Format UInt8 Stat := Format.sized (uint 2) statMembers.format

/-- An encoder that works on a stream of its own writes the bytes it would
    write anywhere. -/
theorem encodes_inner {p : Put} {e : Option Bytes} (hp : Encodes p e)
    {f : Bytes → Put} {g : Bytes → Option Bytes} (hf : ∀ bs, Encodes (f bs) (g bs)) :
    Encodes (innerMessage p >>= f) (e.bind g) := by
  constructor
  · intro bs h msg hw
    obtain ⟨as, rfl, has⟩ := Option.bind_eq_some_iff.mp h
    have hinner := hp.appends as rfl _ (writable_new msg.indeterminate)
    show EStateM.bind (innerMessage p) f msg = _
    simp only [EStateM.bind, innerMessage, hinner]
    exact (hf as).appends bs has msg hw
  · intro h msg hw
    show ∃ ex msg', EStateM.bind (innerMessage p) f msg = .error ex msg'
    cases e with
    | none =>
        obtain ⟨ex, inner, hthrow⟩ := hp.throws rfl _ (writable_new msg.indeterminate)
        exact ⟨ex, msg, by simp only [EStateM.bind, innerMessage, hthrow]⟩
    | some as =>
        have hinner := hp.appends as rfl _ (writable_new msg.indeterminate)
        simp only [EStateM.bind, innerMessage, hinner]
        exact (hf as).throws h msg hw

/-- As a string the members go out behind their length. -/
theorem statFormat_encode (m : Stat) :
    statFormat.encode m = (statMembers.format.encode m).bind stringFormat.encode := by
  cases hm : statMembers.format.encode m with
  | none => simp only [statFormat, Format.sized, hm, Option.bind_none]
  | some bs =>
      simp only [statFormat, Format.sized, hm, Option.bind_some]
      rw [← encodeEach_u8 bs]
      rfl

/-- A stat is encoded as a string of its members. -/
theorem encodes_stat (m : Stat) : Encodes m.encode (statFormat.encode m) := by
  rw [statFormat_encode]
  exact encodes_inner (statMembers.encodes m) encodes_string

/-- The decoder reads the length and goes on to the members without it. -/
theorem reads_stat (order : ArgOrder) (old m : Stat) :
    Reads (old.decode order) (statFormat.encode m) (statMembers.received order old m) := by
  intro bs rest msg h hg hu
  rw [statFormat_encode] at h
  obtain ⟨as, has, hbs⟩ := Option.bind_eq_some_iff.mp h
  -- the string of the encoder, taken apart into its length and its characters
  have hboth : cat ((uint 2).encode as.length) (statMembers.format.encode m) = some bs := by
    rw [has, ← encodeEach_u8 as]
    exact hbs
  exact ((reads_count16 as.length).bind (statMembers.reads order old m)) bs rest msg hboth hg hu

/-- A stat, whose length is read and not used. -/
def stat : Codec Stat where
  format := statFormat
  put := Stat.encode
  get := fun order old => old.decode order
  received := statMembers.received
  encodes := encodes_stat
  reads := reads_stat

/-! ## Messages -/

/-- The codec of a message class: the encoding begins with the operation, the
    header comes back as it was sent, and a decoder takes the operation from
    the first byte it reads. -/
structure MessageCodec (α : Type) extends Codec α where
  header          : α → MessageHeader
  head            : ∀ {a bs}, format.encode a = some bs → bs.head? = some (header a).op.code
  header_received : ∀ order old a, header (received order old a) = header a
  op_first        : ∀ order old {msg : MessageStream} {op rest}, msg.good = true →
    msg.unread = op :: rest → (header (get order old msg).1).op = ⟨op⟩

/-- A message that is a header and nothing else. -/
def message : MessageCodec (Message kind dir) where
  toCodec := (uint8.pair uint16).via
    (fun m => (m.op.code, m.tag))
    (fun t => { op := ⟨t.1⟩, tag := t.2 })
    (fun _ => rfl) (fun _ => rfl)
  header := Message.toMessageHeader
  head := by
    intro m bs h
    obtain ⟨as, cs, h1, -, rfl⟩ := cat_eq_some.mp h
    cases h1
    rfl
  header_received := fun _ _ _ => rfl
  op_first := by
    intro order old msg op rest hg hu
    have hread := reads_uint8 op [op] rest msg rfl hg hu
    show (⟨(decodeUInt8 msg).1⟩ : Operation) = ⟨op⟩
    rw [hread]

/-- A class that adds members behind those of its parent. -/
def MessageCodec.extend (parent : MessageCodec α) (members : Codec β)
    (fields : γ → α × β) (make : α × β → γ)
    (make_fields : ∀ m, make (fields m) = m) (fields_make : ∀ t, fields (make t) = t) :
    MessageCodec γ where
  toCodec := (parent.toCodec.pair members).via fields make make_fields fields_make
  header := fun m => parent.header (fields m).1
  head := by
    intro m bs h
    obtain ⟨as, cs, h1, -, rfl⟩ := cat_eq_some.mp h
    rw [List.head?_append, parent.head h1]
    rfl
  header_received := by
    intro order old m
    show parent.header (fields (make _)).1 = _
    rw [fields_make]
    exact parent.header_received order (fields old).1 (fields m).1
  op_first := by
    intro order old msg op rest hg hu
    show (parent.header (fields (make _)).1).op = ⟨op⟩
    rw [fields_make]
    exact parent.op_first order (fields old).1 hg hu

/-! ## Session messages -/

/-- Header and error message. -/
def errorResponse : MessageCodec ErrorResponse :=
  (message .Error .Response).extend string
    (fun m => (m.toMessage, m.ename))
    (fun t => { toMessage := t.1, ename := t.2 })
    (fun _ => rfl) (fun _ => rfl)

/-- Header, two bytes of size and the version string. -/
def versionMessage : MessageCodec (VersionMessage dir) :=
  (message .Version dir).extend (uint16.pair string)
    (fun m => (m.toMessage, m.msize, m.version))
    (fun t => { toMessage := t.1, msize := t.2.1, version := t.2.2 })
    (fun _ => rfl) (fun _ => rfl)

/-- Header, authentication handle, user and mount point. -/
def authenticationRequest : MessageCodec AuthenticationRequest :=
  (message .Auth .Request).extend (uint32.pair (string.pair string))
    (fun m => (m.toMessage, m.afid, m.uname, m.aname))
    (fun t => { toMessage := t.1, afid := t.2.1, uname := t.2.2.1, aname := t.2.2.2 })
    (fun _ => rfl) (fun _ => rfl)

/-- Header and qid. -/
def authenticationResponse : MessageCodec AuthenticationResponse :=
  (message .Auth .Response).extend hasQid
    (fun m => (m.toMessage, m.toHasQid))
    (fun t => { toMessage := t.1, toHasQid := t.2 })
    (fun _ => rfl) (fun _ => rfl)

/-- Header and old tag. -/
def flushRequest : MessageCodec FlushRequest :=
  (message .Flush .Request).extend uint16
    (fun m => (m.toMessage, m.oldtag))
    (fun t => { toMessage := t.1, oldtag := t.2 })
    (fun _ => rfl) (fun _ => rfl)

/-- Header, fid, authentication handle, user and mount point. -/
def attachRequest : MessageCodec AttachRequest :=
  (message .Attach .Request).extend (hasFid.pair (uint32.pair (string.pair string)))
    (fun m => (m.toMessage, m.toHasFid, m.afid, m.uname, m.aname))
    (fun t => { toMessage := t.1, toHasFid := t.2.1, afid := t.2.2.1, uname := t.2.2.2.1,
                aname := t.2.2.2.2 })
    (fun _ => rfl) (fun _ => rfl)

/-- Header and qid. -/
def attachResponse : MessageCodec AttachResponse :=
  (message .Attach .Response).extend hasQid
    (fun m => (m.toMessage, m.toHasQid))
    (fun t => { toMessage := t.1, toHasQid := t.2 })
    (fun _ => rfl) (fun _ => rfl)

/-! ## File messages -/

/-- Header, two fids and the names. -/
def walkRequest : MessageCodec WalkRequest :=
  (message .Walk .Request).extend (hasFid.pair (uint32.pair (vector string [])))
    (fun m => (m.toMessage, m.toHasFid, m.newfid, m.wname))
    (fun t => { toMessage := t.1, toHasFid := t.2.1, newfid := t.2.2.1, wname := t.2.2.2 })
    (fun _ => rfl) (fun _ => rfl)

/-- Header and qids. -/
def walkResponse : MessageCodec WalkResponse :=
  (message .Walk .Response).extend (vector qid {})
    (fun m => (m.toMessage, m.wqid))
    (fun t => { toMessage := t.1, wqid := t.2 })
    (fun _ => rfl) (fun _ => rfl)

/-- Header, fid and mode. -/
def openRequest : MessageCodec OpenRequest :=
  (message .Open .Request).extend (hasFid.pair uint8)
    (fun m => (m.toMessage, m.toHasFid, m.mode))
    (fun t => { toMessage := t.1, toHasFid := t.2.1, mode := t.2.2 })
    (fun _ => rfl) (fun _ => rfl)

/-- Header, qid and size. -/
def openOrCreateResponse : MessageCodec (OpenOrCreateResponse kind) :=
  (message kind .Response).extend (hasQid.pair uint32)
    (fun m => (m.toMessage, m.toHasQid, m.iounit))
    (fun t => { toMessage := t.1, toHasQid := t.2.1, iounit := t.2.2 })
    (fun _ => rfl) (fun _ => rfl)

/-- Header, fid, name, permissions and mode. -/
def createRequest : MessageCodec CreateRequest :=
  (message .Create .Request).extend (hasFid.pair (hasName.pair (uint32.pair uint8)))
    (fun m => (m.toMessage, m.toHasFid, m.toHasName, m.perm, m.mode))
    (fun t => { toMessage := t.1, toHasFid := t.2.1, toHasName := t.2.2.1,
                perm := t.2.2.2.1, mode := t.2.2.2.2 })
    (fun _ => rfl) (fun _ => rfl)

/-- Header and fid. -/
def fidRequest : MessageCodec (FidRequest kind) :=
  (message kind .Request).extend hasFid
    (fun m => (m.toMessage, m.toHasFid))
    (fun t => { toMessage := t.1, toHasFid := t.2 })
    (fun _ => rfl) (fun _ => rfl)

/-- Header, fid and offset. -/
def readWriteRequest : MessageCodec (ReadWriteRequest kind) :=
  (fidRequest kind).extend hasOffset
    (fun m => (m.toFidRequest, m.toHasOffset))
    (fun t => { toFidRequest := t.1, toHasOffset := t.2 })
    (fun _ => rfl) (fun _ => rfl)

/-- Header, fid, offset and count. -/
def readRequest : MessageCodec ReadRequest :=
  (readWriteRequest .Read).extend hasCount
    (fun m => (m.toReadWriteRequest, m.toHasCount))
    (fun t => { toReadWriteRequest := t.1, toHasCount := t.2 })
    (fun _ => rfl) (fun _ => rfl)

/-- Header and data block. -/
def readResponse : MessageCodec ReadResponse :=
  (message .Read .Response).extend hasData
    (fun m => (m.toMessage, m.toHasDataStorage))
    (fun t => { toMessage := t.1, toHasDataStorage := t.2 })
    (fun _ => rfl) (fun _ => rfl)

/-- Header, fid, offset and data block. -/
def writeRequest : MessageCodec WriteRequest :=
  (readWriteRequest .Write).extend hasData
    (fun m => (m.toReadWriteRequest, m.toHasDataStorage))
    (fun t => { toReadWriteRequest := t.1, toHasDataStorage := t.2 })
    (fun _ => rfl) (fun _ => rfl)

/-- Header and count. -/
def writeResponse : MessageCodec WriteResponse :=
  (message .Write .Response).extend hasCount
    (fun m => (m.toMessage, m.toHasCount))
    (fun t => { toMessage := t.1, toHasCount := t.2 })
    (fun _ => rfl) (fun _ => rfl)

/-! ## Metadata messages -/

/-- Header and string. -/
def statResponse : MessageCodec StatResponse :=
  (message .Stat .Response).extend string
    (fun m => (m.toMessage, m.data))
    (fun t => { toMessage := t.1, data := t.2 })
    (fun _ => rfl) (fun _ => rfl)

/-- Header, fid and stat. -/
def wStatRequest : MessageCodec WStatRequest :=
  (message .WStat .Request).extend (hasFid.pair stat)
    (fun m => (m.toMessage, m.toHasFid, m.stat))
    (fun t => { toMessage := t.1, toHasFid := t.2.1, stat := t.2.2 })
    (fun _ => rfl) (fun _ => rfl)

end KzrMessageCodec
