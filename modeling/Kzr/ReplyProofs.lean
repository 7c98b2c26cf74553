import Mathlib.Data.List.Forall2
import Mathlib.Data.List.Nodup
import Kzr.EncodableProofs
import Kzr.UntrustedInputProofs

/-! # Answers and the requests they belong to

    A client may have several requests under way, and nothing says in which order
    they are answered.  An answer belongs to the request with its tag, and its
    operation is the one `expectedResponseKind` announces, or that of an error.

    A server gives the request's tag to its answer with `setTag`, which version
    messages override to do nothing: a version response is always sent under
    `notag`.  So a client finds the request of every answer exactly when the version
    requests answered in kind have been sent under `notag` themselves. -/

namespace KzrReply

open KzrOperation KzrMessageStream KzrPrimitive KzrMessage KzrInteraction KzrInteractionCodec
open KzrRoundTrip KzrEncodable KzrUntrustedInput
open KzrField (fields)

variable {dir : MessageDirection} {kind : ConceptualOperation}

/-! ## Setting a tag -/

/-- The request has been decoded from some stream. -/
def Asked (order : ArgOrder) (r : Request) : Prop :=
  ∃ msg old msg', decodeInteraction order (msg, old) = .ok () (msg', .request r)

/-- The response is under the operation expected, or under that of an error. -/
def Expected (v : Response) (r : Request) : Prop :=
  v.getOperation = expectedResponseKind r.getOperation ∨ v.isError = true

/-- A server's answer: the response, with the tag of the request. -/
def answer (p : Request × Response) : Response := p.2.setTag p.1.getTag

theorem Asked.getOperation {order : ArgOrder} {r : Request} (h : Asked order r) :
    r.getOperation = RawOperation r.kind .Request := by
  obtain ⟨msg, old, msg', hd⟩ := h
  exact (interactionAgrees order msg old msg' _ hd).1

end KzrReply
