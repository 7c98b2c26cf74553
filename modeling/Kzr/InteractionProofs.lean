import Kzr.MessageProofs

/-! # Requests, responses and interactions

    A `Request` holds one of the request classes, a `Response` one of the
    response classes, an `Interaction` one of the two.  Encoding visits the
    alternative held.  Decoding peeks at the first byte: `operator>>` for a
    `Request` or a `Response` picks the alternative by the kind of that byte,
    whatever direction it names; `operator>>` for an `Interaction` picks the
    side by its parity and delegates.

    The chosen alternative is emplaced before it is decoded, so the state of a
    decoder is the stream together with its target and an exception leaves
    both as they are at that point. -/

namespace KzrInteraction

open KzrOperation KzrMessageStream KzrMessage

variable {α β : Type}

/-! ## The variants -/

/-- The class bound to a kind as a request; `Undefined` stands for the first
    alternative of the variant. -/
def BoundRequestType : ConceptualOperation → Type
  | .Undefined => UndefinedRequest
  | .Version   => VersionRequest
  | .Auth      => AuthenticationRequest
  | .Attach    => AttachRequest
  | .Error     => ErrorRequest
  | .Flush     => FlushRequest
  | .Walk      => WalkRequest
  | .Open      => OpenRequest
  | .Create    => CreateRequest
  | .Read      => ReadRequest
  | .Write     => WriteRequest
  | .Clunk     => ClunkRequest
  | .Remove    => RemoveRequest
  | .Stat      => StatRequest
  | .WStat     => WStatRequest

/-- The class bound to a kind as a response. -/
def BoundResponseType : ConceptualOperation → Type
  | .Undefined => UndefinedResponse
  | .Version   => VersionResponse
  | .Auth      => AuthenticationResponse
  | .Attach    => AttachResponse
  | .Error     => ErrorResponse
  | .Flush     => FlushResponse
  | .Walk      => WalkResponse
  | .Open      => OpenResponse
  | .Create    => CreateResponse
  | .Read      => ReadResponse
  | .Write     => WriteResponse
  | .Clunk     => ClunkResponse
  | .Remove    => RemoveResponse
  | .Stat      => StatResponse
  | .WStat     => WStatResponse

/-- The class bound to a kind in a direction. -/
def BoundType : MessageDirection → ConceptualOperation → Type
  | .Request  => BoundRequestType
  | .Response => BoundResponseType

/-- The `std::variant` of one direction: which alternative is held, and its
    value. -/
structure Variant (dir : MessageDirection) where
  kind : ConceptualOperation
  held : BoundType dir kind

/-- A `std::variant` of the request classes. -/
abbrev Request := Variant .Request
/-- A `std::variant` of the response classes. -/
abbrev Response := Variant .Response

/-- A top level return and encoding type that client and servers send off. -/
inductive Interaction where
  | response (r : Response)
  | request (r : Request)

/-- A value-initialised alternative. -/
def newHeld : (dir : MessageDirection) → (kind : ConceptualOperation) → BoundType dir kind
  | .Request, .Undefined  => ({} : UndefinedRequest)
  | .Request, .Version    => ({} : VersionRequest)
  | .Request, .Auth       => ({} : AuthenticationRequest)
  | .Request, .Attach     => ({} : AttachRequest)
  | .Request, .Error      => ({} : ErrorRequest)
  | .Request, .Flush      => ({} : FlushRequest)
  | .Request, .Walk       => ({} : WalkRequest)
  | .Request, .Open       => ({} : OpenRequest)
  | .Request, .Create     => ({} : CreateRequest)
  | .Request, .Read       => ({} : ReadRequest)
  | .Request, .Write      => ({} : WriteRequest)
  | .Request, .Clunk      => ({} : ClunkRequest)
  | .Request, .Remove     => ({} : RemoveRequest)
  | .Request, .Stat       => ({} : StatRequest)
  | .Request, .WStat      => ({} : WStatRequest)
  | .Response, .Undefined => ({} : UndefinedResponse)
  | .Response, .Version   => ({} : VersionResponse)
  | .Response, .Auth      => ({} : AuthenticationResponse)
  | .Response, .Attach    => ({} : AttachResponse)
  | .Response, .Error     => ({} : ErrorResponse)
  | .Response, .Flush     => ({} : FlushResponse)
  | .Response, .Walk      => ({} : WalkResponse)
  | .Response, .Open      => ({} : OpenResponse)
  | .Response, .Create    => ({} : CreateResponse)
  | .Response, .Read      => ({} : ReadResponse)
  | .Response, .Write     => ({} : WriteResponse)
  | .Response, .Clunk     => ({} : ClunkResponse)
  | .Response, .Remove    => ({} : RemoveResponse)
  | .Response, .Stat      => ({} : StatResponse)
  | .Response, .WStat     => ({} : WStatResponse)

/-- A default-constructed variant holds its first alternative. -/
def Variant.new (dir : MessageDirection) : Variant dir := ⟨.Undefined, newHeld dir .Undefined⟩

/-- A value-initialised interaction holds its first alternative. -/
def Interaction.new : Interaction := .response (.new .Response)

/-! ## Encoding -/

/-- The `encode` of the alternative held. -/
def encodeHeld : (dir : MessageDirection) → (kind : ConceptualOperation) →
    BoundType dir kind → Put
  | .Request, .Undefined  => UndefinedMessage.encode
  | .Request, .Version    => VersionMessage.encode
  | .Request, .Auth       => AuthenticationRequest.encode
  | .Request, .Attach     => AttachRequest.encode
  | .Request, .Error      => Message.encode
  | .Request, .Flush      => FlushRequest.encode
  | .Request, .Walk       => WalkRequest.encode
  | .Request, .Open       => OpenRequest.encode
  | .Request, .Create     => CreateRequest.encode
  | .Request, .Read       => ReadRequest.encode
  | .Request, .Write      => WriteRequest.encode
  | .Request, .Clunk      => FidRequest.encode
  | .Request, .Remove     => FidRequest.encode
  | .Request, .Stat       => FidRequest.encode
  | .Request, .WStat      => WStatRequest.encode
  | .Response, .Undefined => UndefinedMessage.encode
  | .Response, .Version   => VersionMessage.encode
  | .Response, .Auth      => AuthenticationResponse.encode
  | .Response, .Attach    => AttachResponse.encode
  | .Response, .Error     => ErrorResponse.encode
  | .Response, .Flush     => Message.encode
  | .Response, .Walk      => WalkResponse.encode
  | .Response, .Open      => OpenOrCreateResponse.encode
  | .Response, .Create    => OpenOrCreateResponse.encode
  | .Response, .Read      => ReadResponse.encode
  | .Response, .Write     => WriteResponse.encode
  | .Response, .Clunk     => Message.encode
  | .Response, .Remove    => Message.encode
  | .Response, .Stat      => StatResponse.encode
  | .Response, .WStat     => Message.encode

/-- `operator<<` of a variant: the virtual `encode` of what it holds. -/
def encodeVariant {dir : MessageDirection} (request : Variant dir) : Put :=
  encodeHeld dir request.kind request.held

/-- `operator<<(MessageStream&, const Request&)`. -/
def encodeRequest (request : Request) : Put := encodeVariant request

/-- `operator<<(MessageStream&, const Response&)`. -/
def encodeResponse (request : Response) : Put := encodeVariant request

/-- `operator<<(MessageStream&, const Interaction&)`. -/
def encodeInteraction : Interaction → Put
  | .response value => encodeResponse value
  | .request value  => encodeRequest value

/-! ## Decoding -/

/-- A decoder works on the stream and on its target. -/
abbrev Decoder (α : Type) := EStateM Exception (MessageStream × α) Unit

/-- A decoder that cannot throw, run on its target. -/
def inPlace (decode : α → Get α) : Decoder α := fun (msg, this) =>
  match decode this msg with
  | (value, msg) => .ok () (msg, value)

/-- Emplace a new alternative and run its decoder on it. -/
def emplace (hold : α → β) (new : α) (decode : Decoder α) (msg : MessageStream) :
    EStateM.Result Exception (MessageStream × β) Unit :=
  match decode (msg, new) with
  | .ok () (msg, value)    => .ok () (msg, hold value)
  -- nobody puts the old alternative back
  | .error ex (msg, value) => .error ex (msg, hold value)

/-- `UndefinedMessage<dir>::decode`. -/
def decodeUndefined : (dir : MessageDirection) → Decoder (UndefinedMessage dir)
  | .Request  => EStateM.throw ⟨"Undefined request!"⟩
  | .Response => EStateM.throw ⟨"Undefined response!"⟩

/-- The `decode` of each alternative. -/
def decodeHeld (order : ArgOrder) : (dir : MessageDirection) → (kind : ConceptualOperation) →
    Decoder (BoundType dir kind)
  | .Request, .Undefined  => decodeUndefined .Request
  | .Request, .Version    => inPlace VersionMessage.decode
  | .Request, .Auth       => inPlace AuthenticationRequest.decode
  | .Request, .Attach     => inPlace AttachRequest.decode
  | .Request, .Error      => inPlace Message.decode
  | .Request, .Flush      => inPlace FlushRequest.decode
  | .Request, .Walk       => inPlace WalkRequest.decode
  | .Request, .Open       => inPlace OpenRequest.decode
  | .Request, .Create     => inPlace CreateRequest.decode
  | .Request, .Read       => inPlace (ReadRequest.decode order)
  | .Request, .Write      => inPlace (WriteRequest.decode order)
  | .Request, .Clunk      => inPlace FidRequest.decode
  | .Request, .Remove     => inPlace FidRequest.decode
  | .Request, .Stat       => inPlace FidRequest.decode
  | .Request, .WStat      => inPlace (WStatRequest.decode order)
  | .Response, .Undefined => decodeUndefined .Response
  | .Response, .Version   => inPlace VersionMessage.decode
  | .Response, .Auth      => inPlace (AuthenticationResponse.decode order)
  | .Response, .Attach    => inPlace (AttachResponse.decode order)
  | .Response, .Error     => inPlace ErrorResponse.decode
  | .Response, .Flush     => inPlace Message.decode
  | .Response, .Walk      => inPlace (WalkResponse.decode order)
  | .Response, .Open      => inPlace (OpenOrCreateResponse.decode order)
  | .Response, .Create    => inPlace (OpenOrCreateResponse.decode order)
  | .Response, .Read      => inPlace ReadResponse.decode
  | .Response, .Write     => inPlace WriteResponse.decode
  | .Response, .Clunk     => inPlace Message.decode
  | .Response, .Remove    => inPlace Message.decode
  | .Response, .Stat      => inPlace StatResponse.decode
  | .Response, .WStat     => inPlace Message.decode

/-- The dispatch by kind, the same for both directions. -/
def decodeVariant (order : ArgOrder) (dir : MessageDirection) : Decoder (Variant dir) :=
  fun (msg, request) =>
    match peek msg with
    | (some op, msg) =>
        -- the kind decides alone; the direction of the byte is dropped here
        match convert ⟨op⟩ with
        | .Undefined => .error ⟨"Illegal type found!"⟩ (msg, request)
        | kind       =>
            emplace (Variant.mk kind) (newHeld dir kind) (decodeHeld order dir kind) msg
    | (none, msg)    =>
        .error ⟨"Cannot deduce type because message is not in a good state!"⟩ (msg, request)

/-- `operator>>(MessageStream&, Request&)`. -/
def decodeRequest (order : ArgOrder) : Decoder Request := decodeVariant order .Request

/-- `operator>>(MessageStream&, Response&)`. -/
def decodeResponse (order : ArgOrder) : Decoder Response := decodeVariant order .Response

/-- `operator>>(MessageStream&, Interaction&)`: the parity of the first byte
    picks the side. -/
def decodeInteraction (order : ArgOrder) : Decoder Interaction := fun (msg, thing) =>
  match peek msg with
  | (some op, msg) =>
      if isRequest ⟨op⟩ then
        emplace Interaction.request (.new .Request) (decodeRequest order) msg
      else
        emplace Interaction.response (.new .Response) (decodeResponse order) msg
  | (none, msg)    =>
      .error ⟨"Cannot deduce type because message is not in a good state!"⟩ (msg, thing)

/-! ## What is held -/

/-- The header part of the alternative held. -/
def heldHeader : (dir : MessageDirection) → (kind : ConceptualOperation) →
    BoundType dir kind → MessageHeader
  | .Request, .Undefined  => fun m : UndefinedRequest => m.toMessageHeader
  | .Request, .Version    => fun m : VersionRequest => m.toMessageHeader
  | .Request, .Auth       => fun m : AuthenticationRequest => m.toMessageHeader
  | .Request, .Attach     => fun m : AttachRequest => m.toMessageHeader
  | .Request, .Error      => fun m : ErrorRequest => m.toMessageHeader
  | .Request, .Flush      => fun m : FlushRequest => m.toMessageHeader
  | .Request, .Walk       => fun m : WalkRequest => m.toMessageHeader
  | .Request, .Open       => fun m : OpenRequest => m.toMessageHeader
  | .Request, .Create     => fun m : CreateRequest => m.toMessageHeader
  | .Request, .Read       => fun m : ReadRequest => m.toMessageHeader
  | .Request, .Write      => fun m : WriteRequest => m.toMessageHeader
  | .Request, .Clunk      => fun m : ClunkRequest => m.toMessageHeader
  | .Request, .Remove     => fun m : RemoveRequest => m.toMessageHeader
  | .Request, .Stat       => fun m : StatRequest => m.toMessageHeader
  | .Request, .WStat      => fun m : WStatRequest => m.toMessageHeader
  | .Response, .Undefined => fun m : UndefinedResponse => m.toMessageHeader
  | .Response, .Version   => fun m : VersionResponse => m.toMessageHeader
  | .Response, .Auth      => fun m : AuthenticationResponse => m.toMessageHeader
  | .Response, .Attach    => fun m : AttachResponse => m.toMessageHeader
  | .Response, .Error     => fun m : ErrorResponse => m.toMessageHeader
  | .Response, .Flush     => fun m : FlushResponse => m.toMessageHeader
  | .Response, .Walk      => fun m : WalkResponse => m.toMessageHeader
  | .Response, .Open      => fun m : OpenResponse => m.toMessageHeader
  | .Response, .Create    => fun m : CreateResponse => m.toMessageHeader
  | .Response, .Read      => fun m : ReadResponse => m.toMessageHeader
  | .Response, .Write     => fun m : WriteResponse => m.toMessageHeader
  | .Response, .Clunk     => fun m : ClunkResponse => m.toMessageHeader
  | .Response, .Remove    => fun m : RemoveResponse => m.toMessageHeader
  | .Response, .Stat      => fun m : StatResponse => m.toMessageHeader
  | .Response, .WStat     => fun m : WStatResponse => m.toMessageHeader

/-- `getOperation()` of the message held. -/
def Variant.getOperation {dir : MessageDirection} (v : Variant dir) : Operation :=
  (heldHeader dir v.kind v.held).op

/-- `getTag()` of the message held. -/
def Variant.getTag {dir : MessageDirection} (v : Variant dir) : UInt16 :=
  (heldHeader dir v.kind v.held).tag

/-- `setTag(value)` of the message held; only version messages override it. -/
def heldSetTag (value : UInt16) : (dir : MessageDirection) → (kind : ConceptualOperation) →
    BoundType dir kind → BoundType dir kind
  | .Request, .Undefined => fun m : UndefinedRequest => { m with toMessageHeader := m.setTag value }
  | .Request, .Version => fun m : VersionRequest => m.setTag value
  | .Request, .Auth => fun m : AuthenticationRequest => { m with toMessageHeader := m.setTag value }
  | .Request, .Attach => fun m : AttachRequest => { m with toMessageHeader := m.setTag value }
  | .Request, .Error => fun m : ErrorRequest => { m with toMessageHeader := m.setTag value }
  | .Request, .Flush => fun m : FlushRequest => { m with toMessageHeader := m.setTag value }
  | .Request, .Walk => fun m : WalkRequest => { m with toMessageHeader := m.setTag value }
  | .Request, .Open => fun m : OpenRequest => { m with toMessageHeader := m.setTag value }
  | .Request, .Create => fun m : CreateRequest => { m with toMessageHeader := m.setTag value }
  | .Request, .Read => fun m : ReadRequest => { m with toMessageHeader := m.setTag value }
  | .Request, .Write => fun m : WriteRequest => { m with toMessageHeader := m.setTag value }
  | .Request, .Clunk => fun m : ClunkRequest => { m with toMessageHeader := m.setTag value }
  | .Request, .Remove => fun m : RemoveRequest => { m with toMessageHeader := m.setTag value }
  | .Request, .Stat => fun m : StatRequest => { m with toMessageHeader := m.setTag value }
  | .Request, .WStat => fun m : WStatRequest => { m with toMessageHeader := m.setTag value }
  | .Response, .Undefined => fun m : UndefinedResponse =>
      { m with toMessageHeader := m.setTag value }
  | .Response, .Version => fun m : VersionResponse => m.setTag value
  | .Response, .Auth => fun m : AuthenticationResponse =>
      { m with toMessageHeader := m.setTag value }
  | .Response, .Attach => fun m : AttachResponse => { m with toMessageHeader := m.setTag value }
  | .Response, .Error => fun m : ErrorResponse => { m with toMessageHeader := m.setTag value }
  | .Response, .Flush => fun m : FlushResponse => { m with toMessageHeader := m.setTag value }
  | .Response, .Walk => fun m : WalkResponse => { m with toMessageHeader := m.setTag value }
  | .Response, .Open => fun m : OpenResponse => { m with toMessageHeader := m.setTag value }
  | .Response, .Create => fun m : CreateResponse => { m with toMessageHeader := m.setTag value }
  | .Response, .Read => fun m : ReadResponse => { m with toMessageHeader := m.setTag value }
  | .Response, .Write => fun m : WriteResponse => { m with toMessageHeader := m.setTag value }
  | .Response, .Clunk => fun m : ClunkResponse => { m with toMessageHeader := m.setTag value }
  | .Response, .Remove => fun m : RemoveResponse => { m with toMessageHeader := m.setTag value }
  | .Response, .Stat => fun m : StatResponse => { m with toMessageHeader := m.setTag value }
  | .Response, .WStat => fun m : WStatResponse => { m with toMessageHeader := m.setTag value }

/-- The virtual `setTag` of what it holds. -/
def Variant.setTag {dir : MessageDirection} (v : Variant dir) (value : UInt16) : Variant dir :=
  ⟨v.kind, heldSetTag value dir v.kind v.held⟩

/-- `isError()` of the message held. -/
def Variant.isError {dir : MessageDirection} (v : Variant dir) : Bool :=
  (heldHeader dir v.kind v.held).isError

/-- The message held carries the operation its constructor set. -/
def Variant.Constructed {dir : MessageDirection} (v : Variant dir) : Prop :=
  v.getOperation = RawOperation v.kind dir

/-- The operation of the message held. -/
def Interaction.getOperation : Interaction → Operation
  | .response r => r.getOperation
  | .request r  => r.getOperation

/-- The tag of the message held. -/
def Interaction.getTag : Interaction → UInt16
  | .response r => r.getTag
  | .request r  => r.getTag

/-- The message held carries the operation of its class. -/
def Interaction.Constructed : Interaction → Prop
  | .response r => r.Constructed
  | .request r  => r.Constructed

end KzrInteraction
