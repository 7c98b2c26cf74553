import Kzr.IntegerCodecProofs
import Kzr.InteractionCodecProofs

/-! # Messages field by field

    Behind its header a message is a list of fields, and the class puts and takes
    them one after the other.  `Consists c f` says so of a codec: it is put
    together from the codecs of the fields that `f` lists, by sequencing and
    renaming alone.

    That is shown of the 28 classes here, once.  Whatever the codecs of the single
    fields have, and two codecs in a row and a change of representation keep, then
    holds of every class by induction over `Consists`. -/

namespace KzrField

open KzrOperation KzrMessageStream KzrIntegerCodec KzrCodec KzrMessage KzrMessageCodec
open KzrInteraction KzrInteractionCodec

variable {α β γ : Type} {dir : MessageDirection} {kind : ConceptualOperation}

/-! ## Fields -/

/-- What a message puts at a time: an integer of any width, or what a loop or another
    object puts for it. -/
inductive Field where
  | integer (v : Value)
  | qid (q : Qid)
  | text (s : Bytes)
  | names (l : List Bytes)
  | qids (l : List Qid)
  | data (s : Bytes)
  | stat (m : Stat)

/-- The header is two integers. -/
def headerFields (h : MessageHeader) : List Field :=
  [.integer (.u8 h.op.code), .integer (.u16 h.tag)]

/-- The fields of each message behind its header, in the order they go out. -/
def fields : (dir : MessageDirection) → (kind : ConceptualOperation) → BoundType dir kind →
    List Field
  | .Request, .Version => fun m : VersionRequest => [.integer (.u16 m.msize), .text m.version]
  | .Response, .Version => fun m : VersionResponse => [.integer (.u16 m.msize), .text m.version]
  | .Request, .Auth => fun m : AuthenticationRequest =>
      [.integer (.u32 m.afid), .text m.uname, .text m.aname]
  | .Response, .Auth => fun m : AuthenticationResponse => [.qid m.qid]
  | .Response, .Error => fun m : ErrorResponse => [.text m.ename]
  | .Request, .Flush => fun m : FlushRequest => [.integer (.u16 m.oldtag)]
  | .Request, .Attach => fun m : AttachRequest =>
      [.integer (.u32 m.fid), .integer (.u32 m.afid), .text m.uname, .text m.aname]
  | .Response, .Attach => fun m : AttachResponse => [.qid m.qid]
  | .Request, .Walk => fun m : WalkRequest =>
      [.integer (.u32 m.fid), .integer (.u32 m.newfid), .names m.wname]
  | .Response, .Walk => fun m : WalkResponse => [.qids m.wqid]
  | .Request, .Open => fun m : OpenRequest => [.integer (.u32 m.fid), .integer (.u8 m.mode)]
  | .Response, .Open => fun m : OpenResponse => [.qid m.qid, .integer (.u32 m.iounit)]
  | .Request, .Create => fun m : CreateRequest =>
      [.integer (.u32 m.fid), .text m.name, .integer (.u32 m.perm), .integer (.u8 m.mode)]
  | .Response, .Create => fun m : CreateResponse => [.qid m.qid, .integer (.u32 m.iounit)]
  | .Request, .Read => fun m : ReadRequest =>
      [.integer (.u32 m.fid), .integer (.u64 m.offset), .integer (.u32 m.count)]
  | .Response, .Read => fun m : ReadResponse => [.data m.data]
  | .Request, .Write => fun m : WriteRequest =>
      [.integer (.u32 m.fid), .integer (.u64 m.offset), .data m.data]
  | .Response, .Write => fun m : WriteResponse => [.integer (.u32 m.count)]
  | .Request, .Clunk => fun m : ClunkRequest => [.integer (.u32 m.fid)]
  | .Request, .Remove => fun m : RemoveRequest => [.integer (.u32 m.fid)]
  | .Request, .Stat => fun m : StatRequest => [.integer (.u32 m.fid)]
  | .Response, .Stat => fun m : StatResponse => [.text m.data]
  | .Request, .WStat => fun m : WStatRequest => [.integer (.u32 m.fid), .stat m.stat]
  | _, _ => fun _ => []

/-- The members of a stat, behind its size. -/
def memberFields (m : Stat) : List Field :=
  [.integer (.u16 m.type), .integer (.u32 m.dev), .qid m.qid, .integer (.u32 m.mode),
    .integer (.u32 m.atime), .integer (.u32 m.mtime), .integer (.u64 m.length), .text m.name,
    .text m.uid, .text m.gid, .text m.muid]

/-! ## Codecs of fields -/

/-- The codec puts and takes these fields, one after the other.  A stat may be
    among them if `stats` holds. -/
inductive Consists (stats : Prop) : {α : Type} → Codec α → (α → List Field) → Prop where
  | uint8 : Consists stats uint8 fun v => [.integer (.u8 v)]
  | uint16 : Consists stats uint16 fun v => [.integer (.u16 v)]
  | uint32 : Consists stats uint32 fun v => [.integer (.u32 v)]
  | uint64 : Consists stats uint64 fun v => [.integer (.u64 v)]
  | qid : Consists stats qid fun q => [.qid q]
  | string : Consists stats string fun s => [.text s]
  | names : Consists stats (vector string []) fun l => [.names l]
  | qids : Consists stats (vector KzrMessageCodec.qid {}) fun l => [.qids l]
  | data : Consists stats hasData fun m => [.data m.data]
  | stat : stats → Consists stats statMembers memberFields →
      Consists stats stat fun m => [.stat m]
  | pair {α β : Type} {c : Codec α} {d : Codec β} {f : α → List Field} {g : β → List Field} :
      Consists stats c f → Consists stats d g → Consists stats (c.pair d) fun p => f p.1 ++ g p.2
  | via {α γ : Type} {c : Codec γ} {f : γ → List Field} {parts : α → γ} {make : γ → α}
      {make_parts : ∀ a, make (parts a) = a} {parts_make : ∀ t, parts (make t) = t} :
      Consists stats c f →
      Consists stats (c.via parts make make_parts parts_make) fun a => f (parts a)

variable {stats : Prop}

/-- A header is its operation and its tag. -/
theorem consists_message :
    Consists stats (message kind dir).toCodec fun m => headerFields m.toMessageHeader :=
  .via (.pair .uint8 .uint16)

/-- A class has the fields of its parent, and then its own. -/
theorem consists_extend {parent : MessageCodec α} {members : Codec β} {parts : γ → α × β}
    {make : α × β → γ} {make_parts : ∀ m, make (parts m) = m}
    {parts_make : ∀ t, parts (make t) = t} {f : α → List Field} {g : β → List Field}
    (hp : Consists stats parent.toCodec f) (hm : Consists stats members g) :
    Consists stats (parent.extend members parts make make_parts parts_make).toCodec
      fun m => f (parts m).1 ++ g (parts m).2 :=
  .via (.pair hp hm)

/-- `HasQid` is a qid. -/
theorem consists_hasQid : Consists stats hasQid fun m => [.qid m.qid] := .via .qid

theorem consists_hasName : Consists stats hasName fun m => [.text m.name] := .via .string

theorem consists_hasFid : Consists stats hasFid fun m => [.integer (.u32 m.fid)] := .via .uint32

theorem consists_hasCount : Consists stats hasCount fun m => [.integer (.u32 m.count)] :=
  .via .uint32

/-- The members of a stat, with a qid and a name from the mixins. -/
theorem consists_statMembers : Consists stats statMembers memberFields :=
  .via (.pair .uint16 (.pair .uint32 (.pair consists_hasQid (.pair .uint32 (.pair .uint32
    (.pair .uint32 (.pair .uint64 (.pair consists_hasName (.pair .string
      (.pair .string .string))))))))))

/-- Both answers that open a file. -/
theorem consists_openOrCreateResponse : Consists stats (openOrCreateResponse kind).toCodec
    fun m => headerFields m.toMessageHeader ++ [.qid m.qid, .integer (.u32 m.iounit)] :=
  consists_extend consists_message (.pair consists_hasQid .uint32)

/-- All requests that name a fid, and what reads and writes begin with. -/
theorem consists_fidRequest : Consists stats (fidRequest kind).toCodec
    fun m => headerFields m.toMessageHeader ++ [.integer (.u32 m.fid)] :=
  consists_extend consists_message consists_hasFid

/-- What reads and writes have in common. -/
theorem consists_readWriteRequest : Consists stats (readWriteRequest kind).toCodec fun m =>
    headerFields m.toMessageHeader ++ [.integer (.u32 m.fid), .integer (.u64 m.offset)] :=
  consists_extend consists_fidRequest (.via .uint64)

/-- **EVERY CLASS IS ITS HEADER AND ITS FIELDS**, and only the stat request has a
    stat among them. -/
theorem consists_codec (hk : kind ≠ .Undefined) :
    Consists (dir = .Request ∧ kind = .WStat) (codec dir kind hk).toCodec
      fun m => headerFields (heldHeader dir kind m) ++ fields dir kind m := by
  cases dir with
  | Request =>
      cases kind with
      | Undefined => exact absurd rfl hk
      | Version => exact consists_extend consists_message (.pair .uint16 .string)
      | Auth => exact consists_extend consists_message (.pair .uint32 (.pair .string .string))
      | Attach =>
          exact consists_extend consists_message
            (.pair consists_hasFid (.pair .uint32 (.pair .string .string)))
      | Error => exact consists_message
      | Flush => exact consists_extend consists_message .uint16
      | Walk =>
          exact consists_extend consists_message (.pair consists_hasFid (.pair .uint32 .names))
      | Open => exact consists_extend consists_message (.pair consists_hasFid .uint8)
      | Create =>
          exact consists_extend consists_message
            (.pair consists_hasFid (.pair consists_hasName (.pair .uint32 .uint8)))
      | Read => exact consists_extend consists_readWriteRequest consists_hasCount
      | Write => exact consists_extend consists_readWriteRequest .data
      | Clunk => exact consists_fidRequest
      | Remove => exact consists_fidRequest
      | Stat => exact consists_fidRequest
      | WStat =>
          exact consists_extend consists_message
            (.pair consists_hasFid (.stat ⟨rfl, rfl⟩ consists_statMembers))
  | Response =>
      cases kind with
      | Undefined => exact absurd rfl hk
      | Version => exact consists_extend consists_message (.pair .uint16 .string)
      | Auth => exact consists_extend consists_message consists_hasQid
      | Attach => exact consists_extend consists_message consists_hasQid
      | Error => exact consists_extend consists_message .string
      | Flush => exact consists_message
      | Walk => exact consists_extend consists_message .qids
      | Open => exact consists_openOrCreateResponse
      | Create => exact consists_openOrCreateResponse
      | Read => exact consists_extend consists_message .data
      | Write => exact consists_extend consists_message consists_hasCount
      | Clunk => exact consists_message
      | Remove => exact consists_message
      | Stat => exact consists_extend consists_message .string
      | WStat => exact consists_message

end KzrField
