import Kzr.OperationProofs
import Kzr.MessageStreamProofs

/-! # The message classes

    Every message class with the encoder and the decoder it defines.  A class
    that inherits from mixins extends their structures, so `Parent::encode`,
    `HasFid::encode` and the like are calls on the corresponding part.  A
    decoder takes the object it decodes into and returns the object it leaves:
    integers are replaced, strings and vectors are written into.

    Field defaults are those of a value-initialised object: zero integers,
    empty strings and vectors, and the operation of the class.  (The size field
    of a version message is left indeterminate by its constructor; every
    decoder overwrites it before anything reads it.) -/

namespace KzrMessage

open KzrOperation KzrMessageStream

/-! ## Parts shared by several classes -/

/-- `operator<<(MessageStream&, Operation)`. -/
def encodeOperation (op : Operation) : Put := encodeUInt8 op.code

/-- `operator>>(MessageStream&, Operation&)`: any byte becomes an operation. -/
def decodeOperation : Get Operation := do
  let temp ← decodeUInt8
  pure ⟨temp⟩

/-- A unique identification for the given file being accessed by the server. -/
structure Qid where
  type    : UInt8 := 0
  version : UInt32 := 0
  path    : UInt64 := 0
deriving DecidableEq

/-- `Qid::encode`: 13 bytes. -/
def Qid.encode (this : Qid) : Put := do
  encodeUInt8 this.type
  encodeUInt32 this.version
  encodeUInt64 this.path

/-- `Qid::decode`: nothing of the old identification is kept. -/
def Qid.decode (order : ArgOrder) (_this : Qid) : Get Qid := do
  let type ← decodeUInt8
  let version ← decodeUInt32
  let path ← decodeUInt64 order
  pure { type := type, version := version, path := path }

/-- The part of a message, or of a stat, that is a qid. -/
structure HasQid where
  qid : Qid := {}
deriving DecidableEq

/-- `HasQid::encode`: the qid's own encoder. -/
def HasQid.encode (this : HasQid) : Put := this.qid.encode

/-- `HasQid::decode`: the qid's own decoder. -/
def HasQid.decode (order : ArgOrder) (this : HasQid) : Get HasQid := do
  let qid ← this.qid.decode order
  pure { qid := qid }

/-- The part that is a name. -/
structure HasName where
  name : Bytes := []
deriving DecidableEq

/-- `HasName::encode`: as any string. -/
def HasName.encode (this : HasName) : Put := encodeString this.name

/-- `HasName::decode`: the old name is the string written into. -/
def HasName.decode (this : HasName) : Get HasName := do
  let name ← decodeString this.name
  pure { name := name }

/-- The part that is a fid, the client's number for a file. -/
structure HasFid where
  fid : UInt32 := 0
deriving DecidableEq

/-- `HasFid::encode`: four bytes. -/
def HasFid.encode (this : HasFid) : Put := encodeUInt32 this.fid

/-- `HasFid::decode`: the old fid is replaced. -/
def HasFid.decode (_this : HasFid) : Get HasFid := do
  let fid ← decodeUInt32
  pure { fid := fid }

/-- The part that is a number of bytes read or written. -/
structure HasCount where
  count : UInt32 := 0
deriving DecidableEq

/-- `HasCount::encode`: four bytes. -/
def HasCount.encode (this : HasCount) : Put := encodeUInt32 this.count

/-- `HasCount::decode`: the old count is replaced. -/
def HasCount.decode (_this : HasCount) : Get HasCount := do
  let count ← decodeUInt32
  pure { count := count }

/-- The part that is a position in a file. -/
structure HasOffset where
  offset : UInt64 := 0
deriving DecidableEq

/-- `HasOffset::encode`: eight bytes. -/
def HasOffset.encode (this : HasOffset) : Put := encodeUInt64 this.offset

/-- `HasOffset::decode`: the halves are read in the order of evaluation. -/
def HasOffset.decode (order : ArgOrder) (_this : HasOffset) : Get HasOffset := do
  let offset ← decodeUInt64 order
  pure { offset := offset }

/-- The part that is a block of bytes read or to be written. -/
structure HasDataStorage where
  data : List UInt8 := []
deriving DecidableEq

/-- `HasDataStorage::encode`: a 32-bit count and the bytes, unless there are more than
    that count can say. -/
def HasDataStorage.encode (this : HasDataStorage) : Put :=
  let len := UInt32.ofNat this.data.length
  if len.toNat ≠ this.data.length then
    throw ⟨"data storage too large for transmission"⟩
  else do
    encodeUInt32 len
    encodeElements encodeUInt8 this.data

/-- The storage is reserved before the bytes are read, and its size is the sender's
    word; that `_data.reserve` finds the memory is taken for granted. -/
def HasDataStorage.decode (this : HasDataStorage) : Get HasDataStorage := do
  let size ← decodeUInt32
  -- the bytes join those the object already holds
  let data ← decodeElements 0 (fun _ => decodeUInt8) size.toNat this.data
  pure { data := data }

/-- What a server knows of a file. -/
structure Stat extends HasQid, HasName where
  type   : UInt16 := 0
  dev    : UInt32 := 0
  mode   : UInt32 := 0
  atime  : UInt32 := 0
  mtime  : UInt32 := 0
  length : UInt64 := 0
  uid    : Bytes := []
  gid    : Bytes := []
  muid   : Bytes := []
deriving DecidableEq

/-- Run an encoder on a stream of its own and take what it wrote. -/
def innerMessage (p : Put) : EStateM Exception MessageStream Bytes := fun msg =>
  match p (.new msg.indeterminate) with
  | .ok () inner => .ok inner.str msg
  -- the outer stream has not been touched
  | .error ex _  => .error ex msg

/-- The fields of a `Stat` in the order they go into the inner message. -/
def Stat.encodeInner (this : Stat) : Put := do
  encodeUInt16 this.type
  encodeUInt32 this.dev
  this.toHasQid.encode
  encodeUInt32 this.mode
  encodeUInt32 this.atime
  encodeUInt32 this.mtime
  encodeUInt64 this.length
  this.toHasName.encode
  encodeString this.uid
  encodeString this.gid
  encodeString this.muid

/-- `Stat::encode`: the inner message as one string, so with its length in front and
    no more than 65535 bytes of it. -/
def Stat.encode (this : Stat) : Put := do
  let innerString ← innerMessage this.encodeInner
  encodeString innerString

/-- The length in front is read and not used. -/
def Stat.decode (order : ArgOrder) (this : Stat) : Get Stat := do
  let _len ← decodeUInt16
  let type ← decodeUInt16
  let dev ← decodeUInt32
  let hasQid ← this.toHasQid.decode order
  let mode ← decodeUInt32
  let atime ← decodeUInt32
  let mtime ← decodeUInt32
  let length ← decodeUInt64 order
  let hasName ← this.toHasName.decode
  let uid ← decodeString this.uid
  let gid ← decodeString this.gid
  let muid ← decodeString this.muid
  pure { toHasQid := hasQid, toHasName := hasName, type := type, dev := dev, mode := mode,
         atime := atime, mtime := mtime, length := length, uid := uid, gid := gid, muid := muid }

/-! ## Headers -/

/-- The elements common to all message kinds. -/
structure MessageHeader where
  op  : Operation
  tag : UInt16
deriving DecidableEq

/-- `MessageHeader::encode`: the operation's byte and the tag. -/
def MessageHeader.encode (this : MessageHeader) : Put := do
  encodeOperation this.op
  encodeUInt16 this.tag

/-- `MessageHeader::decode`: whatever byte comes first is the operation. -/
def MessageHeader.decode (_this : MessageHeader) : Get MessageHeader := do
  let op ← decodeOperation
  let tag ← decodeUInt16
  pure { op := op, tag := tag }

/-- `MessageHeader::setTag`, virtual: a version message has its own. -/
def MessageHeader.setTag (this : MessageHeader) (value : UInt16) : MessageHeader :=
  { this with tag := value }

/-- `MessageHeader::isError`: of either direction. -/
def MessageHeader.isError (this : MessageHeader) : Bool := convert this.op == .Error

/-- `Message<kind, dir>::RawOperation`. -/
def RawOperation (kind : ConceptualOperation) (dir : MessageDirection) : Operation :=
  translateConcept kind dir

/-- `Message<kind, dir>`; a new one carries the raw operation of its class. -/
structure Message (kind : ConceptualOperation) (dir : MessageDirection)
    extends MessageHeader where
  op  := RawOperation kind dir
  tag := notag
deriving DecidableEq

variable {kind : ConceptualOperation} {dir : MessageDirection}

/-- `Message::encode`: that of the header. -/
def Message.encode (this : Message kind dir) : Put := this.toMessageHeader.encode

/-- `Message::decode`: that of the header, whose operation need not be the class's. -/
def Message.decode (this : Message kind dir) : Get (Message kind dir) := do
  let header ← this.toMessageHeader.decode
  pure { toMessageHeader := header }

/-- What a variant holds before anything is decoded into it. -/
structure UndefinedMessage (dir : MessageDirection) extends Message .Undefined dir
deriving DecidableEq

/-- `UndefinedMessage::encode`: throws before it puts a byte. -/
def UndefinedMessage.encode (_this : UndefinedMessage dir) : Put :=
  match dir with
  | .Request  => throw ⟨"Undefined request!"⟩
  | .Response => throw ⟨"Undefined response!"⟩

/-- The first alternative of a response. -/
abbrev UndefinedResponse := UndefinedMessage .Response
/-- The first alternative of a request. -/
abbrev UndefinedRequest := UndefinedMessage .Request

/-! ## Session messages -/

/-- What the server answers when it cannot do what was asked. -/
structure ErrorResponse extends Message .Error .Response where
  ename : Bytes := []
deriving DecidableEq

/-- `ErrorResponse::encode`: header and error message. -/
def ErrorResponse.encode (this : ErrorResponse) : Put := do
  this.toMessage.encode
  encodeString this.ename

/-- `ErrorResponse::decode`: the text goes into the old error message. -/
def ErrorResponse.decode (this : ErrorResponse) : Get ErrorResponse := do
  let parent ← this.toMessage.decode
  let ename ← decodeString this.ename
  pure { toMessage := parent, ename := ename }

/-- Requesting errors does not make sense, but this is there for regularity. -/
abbrev ErrorRequest := Message .Error .Request

/-- The version of the protocol and the size of a message, of which 16 bits are kept. -/
structure VersionMessage (dir : MessageDirection) extends Message .Version dir where
  version : Bytes := []
  msize   : UInt16 := 0
deriving DecidableEq

/-- `VersionMessage::encode`: header, two bytes of size and the version string. -/
def VersionMessage.encode (this : VersionMessage dir) : Put := do
  this.toMessage.encode
  encodeUInt16 this.msize
  encodeString this.version

/-- `VersionMessage::decode`: as many bytes of size are read back. -/
def VersionMessage.decode (this : VersionMessage dir) : Get (VersionMessage dir) := do
  let parent ← this.toMessage.decode
  let msize ← decodeUInt16
  let version ← decodeString this.version
  pure { toMessage := parent, msize := msize, version := version }

/-- The tag of a version message is not for anyone to set. -/
def VersionMessage.setTag (this : VersionMessage dir) (_value : UInt16) : VersionMessage dir := this

/-- The version a client proposes. -/
abbrev VersionRequest := VersionMessage .Request
/-- The version a server settles on. -/
abbrev VersionResponse := VersionMessage .Response

/-- Negotiates authentication information with the server. -/
structure AuthenticationRequest extends Message .Auth .Request where
  afid  : UInt32 := 0
  uname : Bytes := []
  aname : Bytes := []
deriving DecidableEq

/-- `AuthenticationRequest::encode`: the authentication handle, the user and the mount
    point. -/
def AuthenticationRequest.encode (this : AuthenticationRequest) : Put := do
  this.toMessage.encode
  encodeUInt32 this.afid
  encodeString this.uname
  encodeString this.aname

/-- `AuthenticationRequest::decode`: both names go into the old ones. -/
def AuthenticationRequest.decode (this : AuthenticationRequest) :
    Get AuthenticationRequest := do
  let parent ← this.toMessage.decode
  let afid ← decodeUInt32
  let uname ← decodeString this.uname
  let aname ← decodeString this.aname
  pure { toMessage := parent, afid := afid, uname := uname, aname := aname }

/-- The server's answer when authentication is used, otherwise it is an error. -/
structure AuthenticationResponse extends Message .Auth .Response, HasQid
deriving DecidableEq

/-- `AuthenticationResponse::encode`: header and qid. -/
def AuthenticationResponse.encode (this : AuthenticationResponse) : Put := do
  this.toMessage.encode
  this.toHasQid.encode

/-- `AuthenticationResponse::decode`: header and qid. -/
def AuthenticationResponse.decode (order : ArgOrder) (this : AuthenticationResponse) :
    Get AuthenticationResponse := do
  let parent ← this.toMessage.decode
  let hasQid ← this.toHasQid.decode order
  pure { toMessage := parent, toHasQid := hasQid }

/-- Asks the server to forget the request with the old tag. -/
structure FlushRequest extends Message .Flush .Request where
  oldtag : UInt16 := 0
deriving DecidableEq

/-- `FlushRequest::encode`: header and old tag. -/
def FlushRequest.encode (this : FlushRequest) : Put := do
  this.toMessage.encode
  encodeUInt16 this.oldtag

/-- `FlushRequest::decode`: header and old tag. -/
def FlushRequest.decode (this : FlushRequest) : Get FlushRequest := do
  let parent ← this.toMessage.decode
  let oldtag ← decodeUInt16
  pure { toMessage := parent, oldtag := oldtag }

/-- A flush is answered with a header. -/
abbrev FlushResponse := Message .Flush .Response

/-- Establishes a connection with the file server; the fid is selected by the client. -/
structure AttachRequest extends Message .Attach .Request, HasFid where
  afid  : UInt32 := 0
  uname : Bytes := []
  aname : Bytes := []
deriving DecidableEq

/-- `AttachRequest::encode`: the fid, the authentication handle, the user and the
    mount point. -/
def AttachRequest.encode (this : AttachRequest) : Put := do
  this.toMessage.encode
  this.toHasFid.encode
  encodeUInt32 this.afid
  encodeString this.uname
  encodeString this.aname

/-- `AttachRequest::decode`: both names go into the old ones. -/
def AttachRequest.decode (this : AttachRequest) : Get AttachRequest := do
  let parent ← this.toMessage.decode
  let hasFid ← this.toHasFid.decode
  let afid ← decodeUInt32
  let uname ← decodeString this.uname
  let aname ← decodeString this.aname
  pure { toMessage := parent, toHasFid := hasFid, afid := afid, uname := uname, aname := aname }

/-- The response related to an attach request. -/
structure AttachResponse extends Message .Attach .Response, HasQid
deriving DecidableEq

/-- `AttachResponse::encode`: header and qid. -/
def AttachResponse.encode (this : AttachResponse) : Put := do
  this.toMessage.encode
  this.toHasQid.encode

/-- `AttachResponse::decode`: header and qid. -/
def AttachResponse.decode (order : ArgOrder) (this : AttachResponse) : Get AttachResponse := do
  let parent ← this.toMessage.decode
  let hasQid ← this.toHasQid.decode order
  pure { toMessage := parent, toHasQid := hasQid }

/-! ## File messages -/

/-- Serves two purposes, directory traversal and fid cloning. -/
structure WalkRequest extends Message .Walk .Request, HasFid where
  newfid : UInt32 := 0
  wname  : List Bytes := []
deriving DecidableEq

/-- `WalkRequest::encode`: two fids and the names, behind their number. -/
def WalkRequest.encode (this : WalkRequest) : Put := do
  this.toMessage.encode
  this.toHasFid.encode
  encodeUInt32 this.newfid
  encodeVector encodeString this.wname

/-- `WalkRequest::decode`: the names join the old ones. -/
def WalkRequest.decode (this : WalkRequest) : Get WalkRequest := do
  let parent ← this.toMessage.decode
  let hasFid ← this.toHasFid.decode
  let newfid ← decodeUInt32
  let wname ← decodeVector [] decodeString this.wname
  pure { toMessage := parent, toHasFid := hasFid, newfid := newfid, wname := wname }

/-- `WalkRequest::isDirectoryTraversal`: some name is left to walk along. -/
def WalkRequest.isDirectoryTraversal (this : WalkRequest) : Bool := this.wname.length != 0

/-- A walk along no names clones the fid. -/
def WalkRequest.isFidClone (this : WalkRequest) : Bool := !this.isDirectoryTraversal

/-- A qid for each name the walk got past. -/
structure WalkResponse extends Message .Walk .Response where
  wqid : List Qid := []
deriving DecidableEq

/-- `WalkResponse::encode`: header and qids, behind their number. -/
def WalkResponse.encode (this : WalkResponse) : Put := do
  this.toMessage.encode
  encodeVector Qid.encode this.wqid

/-- `WalkResponse::decode`: the qids join the old ones. -/
def WalkResponse.decode (order : ArgOrder) (this : WalkResponse) : Get WalkResponse := do
  let parent ← this.toMessage.decode
  let wqid ← decodeVector {} (Qid.decode order) this.wqid
  pure { toMessage := parent, wqid := wqid }

/-- Asks for the file behind a fid to be opened. -/
structure OpenRequest extends Message .Open .Request, HasFid where
  mode : UInt8 := 0
deriving DecidableEq

/-- `OpenRequest::encode`: fid and mode. -/
def OpenRequest.encode (this : OpenRequest) : Put := do
  this.toMessage.encode
  this.toHasFid.encode
  encodeUInt8 this.mode

/-- `OpenRequest::decode`: fid and mode. -/
def OpenRequest.decode (this : OpenRequest) : Get OpenRequest := do
  let parent ← this.toMessage.decode
  let hasFid ← this.toHasFid.decode
  let mode ← decodeUInt8
  pure { toMessage := parent, toHasFid := hasFid, mode := mode }

/-- Opening and creating are answered alike, with the file's qid and the largest read
    or write that is not split. -/
structure OpenOrCreateResponse (kind : ConceptualOperation)
    extends Message kind .Response, HasQid where
  iounit : UInt32 := 0
deriving DecidableEq

/-- `OpenOrCreateResponse::encode`: qid and size. -/
def OpenOrCreateResponse.encode (this : OpenOrCreateResponse kind) : Put := do
  this.toMessage.encode
  this.toHasQid.encode
  encodeUInt32 this.iounit

/-- `OpenOrCreateResponse::decode`: qid and size. -/
def OpenOrCreateResponse.decode (order : ArgOrder) (this : OpenOrCreateResponse kind) :
    Get (OpenOrCreateResponse kind) := do
  let parent ← this.toMessage.decode
  let hasQid ← this.toHasQid.decode order
  let iounit ← decodeUInt32
  pure { toMessage := parent, toHasQid := hasQid, iounit := iounit }

/-- The answer to an open request. -/
abbrev OpenResponse := OpenOrCreateResponse .Open

/-- Asks for a file of this name to be created and opened. -/
structure CreateRequest extends Message .Create .Request, HasFid, HasName where
  perm : UInt32 := 0
  mode : UInt8 := 0
deriving DecidableEq

/-- `CreateRequest::encode`: fid, name, permissions and mode. -/
def CreateRequest.encode (this : CreateRequest) : Put := do
  this.toMessage.encode
  this.toHasFid.encode
  this.toHasName.encode
  encodeUInt32 this.perm
  encodeUInt8 this.mode

/-- `CreateRequest::decode`: the name goes into the old one. -/
def CreateRequest.decode (this : CreateRequest) : Get CreateRequest := do
  let parent ← this.toMessage.decode
  let hasFid ← this.toHasFid.decode
  let hasName ← this.toHasName.decode
  let perm ← decodeUInt32
  let mode ← decodeUInt8
  pure { toMessage := parent, toHasFid := hasFid, toHasName := hasName, perm := perm, mode := mode }

/-- The answer to a create request. -/
abbrev CreateResponse := OpenOrCreateResponse .Create

/-- A request that names a fid and nothing else, or a part of one that does. -/
structure FidRequest (kind : ConceptualOperation) extends Message kind .Request, HasFid
deriving DecidableEq

/-- `FidRequest::encode`: header and fid. -/
def FidRequest.encode (this : FidRequest kind) : Put := do
  this.toMessage.encode
  this.toHasFid.encode

/-- `FidRequest::decode`: header and fid. -/
def FidRequest.decode (this : FidRequest kind) : Get (FidRequest kind) := do
  let parent ← this.toMessage.decode
  let hasFid ← this.toHasFid.decode
  pure { toMessage := parent, toHasFid := hasFid }

/-- What reading and writing have in common: the file and the position in it. -/
structure ReadWriteRequest (kind : ConceptualOperation) extends FidRequest kind, HasOffset
deriving DecidableEq

/-- `ReadWriteRequest::encode`: fid and offset. -/
def ReadWriteRequest.encode (this : ReadWriteRequest kind) : Put := do
  this.toFidRequest.encode
  this.toHasOffset.encode

/-- `ReadWriteRequest::decode`: fid and offset. -/
def ReadWriteRequest.decode (order : ArgOrder) (this : ReadWriteRequest kind) :
    Get (ReadWriteRequest kind) := do
  let parent ← this.toFidRequest.decode
  let hasOffset ← this.toHasOffset.decode order
  pure { toFidRequest := parent, toHasOffset := hasOffset }

/-- Asks for a number of bytes. -/
structure ReadRequest extends ReadWriteRequest .Read, HasCount
deriving DecidableEq

/-- `ReadRequest::encode`: fid, offset and count. -/
def ReadRequest.encode (this : ReadRequest) : Put := do
  this.toReadWriteRequest.encode
  this.toHasCount.encode

/-- `ReadRequest::decode`: fid, offset and count. -/
def ReadRequest.decode (order : ArgOrder) (this : ReadRequest) : Get ReadRequest := do
  let parent ← this.toReadWriteRequest.decode order
  let hasCount ← this.toHasCount.decode
  pure { toReadWriteRequest := parent, toHasCount := hasCount }

/-- The bytes read. -/
structure ReadResponse extends Message .Read .Response, HasDataStorage
deriving DecidableEq

/-- `ReadResponse::encode`: header and data block. -/
def ReadResponse.encode (this : ReadResponse) : Put := do
  this.toMessage.encode
  this.toHasDataStorage.encode

/-- `ReadResponse::decode`: the bytes join those of the old response. -/
def ReadResponse.decode (this : ReadResponse) : Get ReadResponse := do
  let parent ← this.toMessage.decode
  let hasDataStorage ← this.toHasDataStorage.decode
  pure { toMessage := parent, toHasDataStorage := hasDataStorage }

/-- Bytes to be written. -/
structure WriteRequest extends ReadWriteRequest .Write, HasDataStorage
deriving DecidableEq

/-- `WriteRequest::encode`: fid, offset and data block. -/
def WriteRequest.encode (this : WriteRequest) : Put := do
  this.toReadWriteRequest.encode
  this.toHasDataStorage.encode

/-- `WriteRequest::decode`: the bytes join those of the old request. -/
def WriteRequest.decode (order : ArgOrder) (this : WriteRequest) : Get WriteRequest := do
  let parent ← this.toReadWriteRequest.decode order
  let hasDataStorage ← this.toHasDataStorage.decode
  pure { toReadWriteRequest := parent, toHasDataStorage := hasDataStorage }

/-- How many bytes were written. -/
structure WriteResponse extends Message .Write .Response, HasCount
deriving DecidableEq

/-- `WriteResponse::encode`: header and count. -/
def WriteResponse.encode (this : WriteResponse) : Put := do
  this.toMessage.encode
  this.toHasCount.encode

/-- `WriteResponse::decode`: header and count. -/
def WriteResponse.decode (this : WriteResponse) : Get WriteResponse := do
  let parent ← this.toMessage.decode
  let hasCount ← this.toHasCount.decode
  pure { toMessage := parent, toHasCount := hasCount }

/-- The fid is not used any more. -/
abbrev ClunkRequest := FidRequest .Clunk
/-- A clunk is answered with a header. -/
abbrev ClunkResponse := Message .Clunk .Response
/-- The file behind the fid is to be removed. -/
abbrev RemoveRequest := FidRequest .Remove
/-- A removal is answered with a header. -/
abbrev RemoveResponse := Message .Remove .Response

/-! ## Metadata messages -/

/-- Asks what is known of the file behind a fid. -/
abbrev StatRequest := FidRequest .Stat

/-- What is known of a file, as a string that nobody has taken apart. -/
structure StatResponse extends Message .Stat .Response where
  data : Bytes := []
deriving DecidableEq

/-- `StatResponse::encode`: header and string. -/
def StatResponse.encode (this : StatResponse) : Put := do
  this.toMessage.encode
  encodeString this.data

/-- `StatResponse::decode`: the characters go into the old string. -/
def StatResponse.decode (this : StatResponse) : Get StatResponse := do
  let parent ← this.toMessage.decode
  let data ← decodeString this.data
  pure { toMessage := parent, data := data }

/-- Changes what is known of a file. -/
structure WStatRequest extends Message .WStat .Request, HasFid where
  stat : Stat := {}
deriving DecidableEq

/-- `WStatRequest::encode`: fid and stat, which has its length in front. -/
def WStatRequest.encode (this : WStatRequest) : Put := do
  this.toMessage.encode
  this.toHasFid.encode
  this.stat.encode

/-- `WStatRequest::decode`: the stat's length is skipped. -/
def WStatRequest.decode (order : ArgOrder) (this : WStatRequest) : Get WStatRequest := do
  let parent ← this.toMessage.decode
  let hasFid ← this.toHasFid.decode
  let stat ← this.stat.decode order
  pure { toMessage := parent, toHasFid := hasFid, stat := stat }

/-- Such a change is answered with a header. -/
abbrev WStatResponse := Message .WStat .Response

end KzrMessage
