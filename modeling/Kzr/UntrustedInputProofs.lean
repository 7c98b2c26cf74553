import Kzr.AcceptanceProofs
import Kzr.RoundTripProofs

/-! # Decoding bytes that nobody encoded

    A peer may send anything.  Once the first byte of a good stream is an
    operation of the table the decoders return normally, whatever follows or is
    missing; nothing later is checked.  This module says what that means:

    * the `Request` and `Response` decoders accept operations of the other
      direction, while the `Interaction` decoder never does;
    * a stream that is rejected leaves a request or a response as it was, while
      an interaction has lost its value by then;
    * an encoding cut off anywhere but before its first byte is decoded, with
      the missing bytes taken from uninitialised memory;
    * on the classes without strings, a decode that stayed inside the stream
      returned a message whose encoding is exactly what it consumed. -/

namespace KzrUntrustedInput

open WireFormat LittleEndian KzrOperation KzrMessageStream KzrPrimitive KzrCodec KzrMessage
open KzrMessageCodec KzrInteraction KzrInteractionCodec KzrRoundTrip
open KzrAcceptance (SentAs SentResized sentAs_iff sent_of_accepted)

variable {dir : MessageDirection} {kind : ConceptualOperation}

/-! ## The operation of what is decoded -/

/-- The kind and the operation decoded are those of the byte announced. -/
theorem getOperation_decoded {order : ArgOrder} {msg msg' : MessageStream} {old v : Variant dir}
    (hd : decodeVariant order dir (msg, old) = .ok () (msg', v)) :
    ∃ op, Announces msg op ∧ v.kind = convert ⟨op⟩ ∧ v.getOperation = ⟨op⟩ := by
  obtain ⟨op, hop, rfl⟩ := decodeVariant_ok hd
  obtain ⟨rest, hu⟩ := hop.unread
  refine ⟨op, hop, rfl, ?_⟩
  show (heldHeader dir _ _).op = ⟨op⟩
  rw [heldHeader_eq hop.2.2]
  -- the byte peeked is the byte the header is decoded from
  exact (codec dir _ hop.2.2).op_first order _ hop.1 hu

/-- The decoder of one direction on one stream: what it returns is of its own
    direction, and an operation of the other is refused. -/
def VariantAgrees (order : ArgOrder) (dir : MessageDirection) (msg : MessageStream) : Prop :=
  ∀ old : Variant dir,
    (∀ msg' v, decodeVariant order dir (msg, old) = .ok () (msg', v) →
      v.getOperation = RawOperation v.kind dir ∧ directionOf v.getOperation = dir)
    ∧ ∀ op, msg.unread.head? = some op → directionOf ⟨op⟩ ≠ dir →
      ∃ ex s, decodeVariant order dir (msg, old) = .error ex s

theorem variantAgrees_iff (order : ArgOrder) (dir : MessageDirection) (msg : MessageStream) :
    VariantAgrees order dir msg ↔ ∀ op, Announces msg op → directionOf ⟨op⟩ = dir := by
  constructor
  · intro h op hann
    by_contra hdir
    -- whatever is announced is decoded, the other direction included
    obtain ⟨ex, s, hthrow⟩ := (h (.new dir)).2 op hann.2.1 hdir
    rw [decodeVariant_of_announces order hann] at hthrow
    exact nomatch hthrow
  · intro h old
    constructor
    · intro msg' v hd
      obtain ⟨op, hop, hkind, hopv⟩ := getOperation_decoded hd
      have hdir := h op hop
      refine ⟨?_, by rw [hopv, hdir]⟩
      rw [hopv, hkind, ← hdir]
      exact (translateConcept_convert hop.2.2).symm
    · intro op hhead hdir
      have hnone : ∀ op', ¬ Announces msg op' := by
        intro op' hop'
        obtain rfl : op = op' := Option.some.inj (hhead.symm.trans hop'.2.1)
        exact hdir (h op hop')
      obtain ⟨ex, hthrow⟩ := decodeVariant_of_not_announces order hnone old
      exact ⟨ex, _, hthrow⟩

/-- `operator>>(MessageStream&, Request&)` on one stream: it returns only
    requests, each under the operation of its class, and refuses responses. -/
def RequestAgrees (order : ArgOrder) (msg : MessageStream) : Prop :=
  ∀ old : Request,
    (∀ msg' r, decodeRequest order (msg, old) = .ok () (msg', r) →
      r.getOperation = RawOperation r.kind .Request ∧ isRequest r.getOperation = true)
    ∧ ∀ op, msg.unread.head? = some op → isResponse ⟨op⟩ = true →
      ∃ ex s, decodeRequest order (msg, old) = .error ex s

/-- `operator>>(MessageStream&, Response&)`, likewise. -/
def ResponseAgrees (order : ArgOrder) (msg : MessageStream) : Prop :=
  ∀ old : Response,
    (∀ msg' r, decodeResponse order (msg, old) = .ok () (msg', r) →
      r.getOperation = RawOperation r.kind .Response ∧ isResponse r.getOperation = true)
    ∧ ∀ op, msg.unread.head? = some op → isRequest ⟨op⟩ = true →
      ∃ ex s, decodeResponse order (msg, old) = .error ex s

/-- The side held and the operation of the message held agree. -/
def OperationOfSide : Interaction → Prop
  | .request r  => r.getOperation = RawOperation r.kind .Request ∧ isRequest r.getOperation = true
  | .response r =>
      r.getOperation = RawOperation r.kind .Response ∧ isResponse r.getOperation = true

/-- `operator>>(MessageStream&, Interaction&)`: whichever side it returns holds
    a message of that side, under the operation of its class. -/
def InteractionAgrees (order : ArgOrder) (msg : MessageStream) : Prop :=
  ∀ old msg' i, decodeInteraction order (msg, old) = .ok () (msg', i) → OperationOfSide i

theorem directionOf_ne_request {op : Operation} :
    directionOf op ≠ .Request ↔ isResponse op = true := by
  rw [← directionOf_eq_response]
  cases directionOf op <;> simp

theorem directionOf_ne_response {op : Operation} :
    directionOf op ≠ .Response ↔ isRequest op = true := by
  rw [← directionOf_eq_request]
  cases directionOf op <;> simp

theorem requestAgrees_eq (order : ArgOrder) (msg : MessageStream) :
    RequestAgrees order msg ↔ VariantAgrees order .Request msg := by
  simp only [RequestAgrees, VariantAgrees, decodeRequest, directionOf_ne_request,
    directionOf_eq_request]

theorem responseAgrees_eq (order : ArgOrder) (msg : MessageStream) :
    ResponseAgrees order msg ↔ VariantAgrees order .Response msg := by
  simp only [ResponseAgrees, VariantAgrees, decodeResponse, directionOf_ne_response,
    directionOf_eq_response]

theorem operationOfSide_ofHeld {v : Variant dir}
    (hraw : v.getOperation = RawOperation v.kind dir) (hdir : directionOf v.getOperation = dir) :
    OperationOfSide (ofHeld dir v.kind v.held) := by
  cases dir with
  | Request => exact ⟨hraw, directionOf_eq_request.mp hdir⟩
  | Response => exact ⟨hraw, directionOf_eq_response.mp hdir⟩

/-- The delegation happens only where the delegate agrees. -/
theorem interactionAgrees (order : ArgOrder) (msg : MessageStream) :
    InteractionAgrees order msg := by
  intro old msg' i hd
  obtain ⟨op, hop, -, rfl⟩ := decodeInteraction_ok hd
  have hagree : VariantAgrees order (directionOf ⟨op⟩) msg :=
    (variantAgrees_iff order _ msg).mpr fun op' hop' => by rw [hop.unique hop']
  obtain ⟨hraw, hdir⟩ := (hagree (.new _)).1 _ _ (decodeVariant_of_announces order hop _)
  exact operationOfSide_ofHeld hraw hdir

/-- **OPERATION AND TYPE AGREE** in every interaction decoded, from any bytes;
    in a request exactly when the stream does not announce a response, and in
    a response exactly when it does not announce a request. -/
theorem operation_agreement_iff (order : ArgOrder) (msg : MessageStream) :
    (RequestAgrees order msg ↔ ¬ ∃ op, Announces msg op ∧ isResponse ⟨op⟩ = true)
      ∧ (ResponseAgrees order msg ↔ ¬ ∃ op, Announces msg op ∧ isRequest ⟨op⟩ = true)
      ∧ InteractionAgrees order msg := by
  refine ⟨?_, ?_, interactionAgrees order msg⟩
  · rw [requestAgrees_eq, variantAgrees_iff]
    simp only [← directionOf_ne_request, not_exists, not_and, not_not]
  · rw [responseAgrees_eq, variantAgrees_iff]
    simp only [← directionOf_ne_response, not_exists, not_and, not_not]

/-- A response on the wire becomes a request: the flush response, decoded as a
    request, is held as a flush request under the response's operation. -/
theorem request_holds_response :
    ∃ msg r, decodeRequest .leftFirst ((MessageStream.new fun _ => 0).setStr [109, 1, 0, 7, 0],
        .new .Request) = .ok () (msg, r)
      ∧ r.getOperation = .RFlush ∧ r.kind = .Flush ∧ isRequest r.getOperation = false
      ∧ ¬ RequestAgrees .leftFirst ((MessageStream.new fun _ => 0).setStr [109, 1, 0, 7, 0]) := by
  refine ⟨_, _, rfl, rfl, rfl, rfl, ?_⟩
  intro h
  have hreq := ((h (.new .Request)).1 _ _ rfl).2
  exact nomatch hreq

/-! ## Rejected streams -/

/-- Where a decode throws, its target holds what it held and no byte is gone. -/
def LeavesAlone {α : Type} (decode : Decoder α) (msg : MessageStream) (v : α) : Prop :=
  ∀ ex s, decode (msg, v) = .error ex s → s.2 = v ∧ s.1.unread = msg.unread

/-- The dispatch by kind throws before it touches its target. -/
theorem variant_leavesAlone (order : ArgOrder) (msg : MessageStream) (v : Variant dir) :
    LeavesAlone (decodeVariant order dir) msg v := by
  intro ex s hthrow
  by_cases hann : ∃ op, Announces msg op
  · obtain ⟨op, hop⟩ := hann
    rw [decodeVariant_of_announces order hop] at hthrow
    exact nomatch hthrow
  · obtain ⟨ex', hex⟩ := decodeVariant_of_not_announces order (not_exists.mp hann) v
    rw [hex] at hthrow
    cases hthrow
    exact ⟨rfl, unread_peek msg⟩

/-- **A FAILED DECODE** leaves a request and a response alone.  It leaves an
    interaction alone where it does not fail, where the byte it meets is zero,
    and where the interaction already is what gets emplaced. -/
theorem failed_decode_iff (order : ArgOrder) (msg : MessageStream) :
    (∀ v, LeavesAlone (decodeRequest order) msg v)
      ∧ (∀ v, LeavesAlone (decodeResponse order) msg v)
      ∧ ∀ v, LeavesAlone (decodeInteraction order) msg v
        ↔ (∃ op, Announces msg op) ∨ glimpse msg = 0
          ∨ v = emplaced (directionOf ⟨glimpse msg⟩) := by
  refine ⟨variant_leavesAlone order msg, variant_leavesAlone order msg, fun v => ?_⟩
  by_cases hann : ∃ op, Announces msg op
  · refine iff_of_true (fun ex s hthrow => ?_) (Or.inl hann)
    obtain ⟨op, hop⟩ := hann
    rw [decodeInteraction_of_announces order hop] at hthrow
    exact nomatch hthrow
  · obtain ⟨ex, msg', hthrow, hunread⟩ := decodeInteraction_rejected order (not_exists.mp hann) v
    constructor
    · intro h
      have hkept := (h ex _ hthrow).1
      by_cases h0 : glimpse msg = 0
      · exact Or.inr (Or.inl h0)
      · rw [if_neg h0] at hkept
        exact Or.inr (Or.inr hkept.symm)
    · rintro hcond ex' s hs
      rw [hthrow] at hs
      cases hs
      refine ⟨?_, hunread⟩
      by_cases h0 : glimpse msg = 0
      · exact if_pos h0
      · rw [if_neg h0]
        exact ((hcond.resolve_left hann).resolve_left h0).symm

/-- A byte of no operation costs an interaction the flush request it held. -/
theorem failed_decode_flush_lost :
    ∃ ex s, decodeInteraction .leftFirst ((MessageStream.new fun _ => 0).setStr [2],
        .request ⟨.Flush, ({ oldtag := 513 } : FlushRequest)⟩) = .error ex s
      ∧ ¬ s.2 = .request ⟨.Flush, ({ oldtag := 513 } : FlushRequest)⟩ := by
  refine ⟨_, _, rfl, ?_⟩
  intro h
  have hkind := congrArg Variant.kind (Interaction.request.inj h)
  exact nomatch hkind

/-! ## Truncated encodings -/

/-- **TRUNCATION**: of all the prefixes of an encoding only the empty one is
    rejected, or every one where the operation itself is none of the table. -/
theorem truncated_rejected_iff (order : ArgOrder) {i : Interaction} {p q : Bytes}
    {indeterminate : Nat → UInt8} {msg cut : MessageStream}
    (henc : encodeInteraction i (.new indeterminate) = .ok () msg) (hp : msg.str = p ++ q)
    (hg : cut.good = true) (hu : cut.unread = p) (old : Interaction) :
    (∃ ex s, decodeInteraction order (cut, old) = .error ex s)
      ↔ p = [] ∨ convert i.getOperation = .Undefined := by
  obtain ⟨bs, rfl, hhead⟩ := encodeInteraction_head (writable_new indeterminate) henc
  obtain rfl : bs = p ++ q := hp
  constructor
  · rintro ⟨ex, s, hthrow⟩
    cases p with
    | nil => exact Or.inl rfl
    | cons op rest =>
        obtain rfl : op = i.getOperation.code := Option.some.inj hhead
        refine Or.inr (by_contra fun hk => ?_)
        -- one byte is enough to be dispatched, and no decoder throws after that
        have hann : Announces cut i.getOperation.code := ⟨hg, by rw [hu]; rfl, hk⟩
        rw [decodeInteraction_of_announces order hann] at hthrow
        exact nomatch hthrow
  · intro hcond
    refine decodeInteraction_of_not_announces order (fun op hop => ?_) old
    obtain ⟨rest, hrest⟩ := hop.unread
    rw [hu] at hrest
    subst hrest
    rcases hcond with hnil | hk
    · exact nomatch hnil
    · obtain rfl : op = i.getOperation.code := Option.some.inj hhead
      exact hop.2.2 hk

/-- A clunk request cut after its operation. -/
theorem truncated_clunk_accepted :
    ∃ msg, encodeInteraction (.request ⟨.Clunk, ({ fid := 5 } : ClunkRequest)⟩)
        (.new fun _ => 0) = .ok () msg
      ∧ msg.str = [120] ++ [255, 255, 5, 0, 0, 0]
      ∧ ¬ ∃ ex s, decodeInteraction .leftFirst
          ((MessageStream.new fun _ => 0).setStr [120], .new) = .error ex s :=
  ⟨_, rfl, rfl, fun ⟨_, _, h⟩ => nomatch h⟩

/-- The same request is rejected cut before its operation, and not behind it. -/
theorem truncated_clunk_rejected :
    (∃ ex s, decodeInteraction .leftFirst ((MessageStream.new fun _ => 0).setStr [], .new)
        = .error ex s)
      ∧ ¬ ∃ ex s, decodeInteraction .leftFirst
          ((MessageStream.new fun _ => 0).setStr [120], .new) = .error ex s := by
  constructor
  · exact (truncated_rejected_iff .leftFirst
      (i := .request ⟨.Clunk, ({ fid := 5 } : ClunkRequest)⟩) (p := [])
      (q := [120, 255, 255, 5, 0, 0, 0])
      (rfl : encodeInteraction _ (.new fun _ => 0) = .ok () _) rfl rfl rfl .new).mpr (Or.inl rfl)
  · rw [truncated_rejected_iff .leftFirst
      (i := .request ⟨.Clunk, ({ fid := 5 } : ClunkRequest)⟩) (p := [120])
      (q := [255, 255, 5, 0, 0, 0])
      (rfl : encodeInteraction _ (.new fun _ => 0) = .ok () _) rfl rfl rfl .new]
    rintro (h | h)
    · cases h
    · cases h

/-! ## Canonical decoding -/

/-- The classes without a string. -/
def stringless : MessageDirection → ConceptualOperation → Bool
  | .Request, .Error   => true
  | .Request, .Flush   => true
  | .Request, .Open    => true
  | .Request, .Read    => true
  | .Request, .Write   => true
  | .Request, .Clunk   => true
  | .Request, .Remove  => true
  | .Request, .Stat    => true
  | .Response, .Auth   => true
  | .Response, .Flush  => true
  | .Response, .Attach => true
  | .Response, .Walk   => true
  | .Response, .Open   => true
  | .Response, .Create => true
  | .Response, .Read   => true
  | .Response, .Write  => true
  | .Response, .Clunk  => true
  | .Response, .Remove => true
  | .Response, .WStat  => true
  | _, _               => false

/-- The class of the interaction is without a string. -/
def isStringless : Interaction → Bool
  | .response r => stringless .Response r.kind
  | .request r  => stringless .Request r.kind

theorem isStringless_ofHeld (held : BoundType dir kind) :
    isStringless (ofHeld dir kind held) = stringless dir kind := by
  cases dir with
  | Request => rfl
  | Response => rfl

/-- The class received is the class sent. -/
theorem isStringless_received (order : ArgOrder) (i : Interaction) :
    isStringless (received order i) = isStringless i := by
  cases i with
  | response r => rfl
  | request r => rfl

theorem heldStrings_of_stringless (h : stringless dir kind = true) (held : BoundType dir kind) :
    heldStrings dir kind held = [] := by
  cases dir with
  | Request =>
      cases kind with
      | Version | Auth | Attach | Walk | Create | WStat => exact nomatch h
      | _ => rfl
  | Response =>
      cases kind with
      | Version | Error | Stat => exact nomatch h
      | _ => rfl

/-- What is received of an interaction without strings is the interaction. -/
theorem received_of_stringless {i : Interaction} (h : isStringless i = true) :
    received .leftFirst i = i := by
  refine (received_eq_iff i).mpr fun s hs => ?_
  have hnone : strings i = [] := by
    cases i with
    | response r => exact heldStrings_of_stringless h r.held
    | request r => exact heldStrings_of_stringless h r.held
  rw [hnone] at hs
  exact nomatch hs

/-- Only a stat request is sent resized, and it has strings. -/
theorem sentAs_of_stringless {i : Interaction} {bs : Bytes} (h : isStringless i = true)
    (hsent : SentAs i bs ∨ SentResized i bs) : SentAs i bs := by
  rcases hsent with hsent | ⟨m, size, members, rfl, -⟩
  · exact hsent
  · exact nomatch h

/-- **CANONICAL DECODING**: an interaction of a stringless class, decoded from
    any bytes without running off their end, encodes to exactly the bytes it
    was decoded from. -/
theorem decoded_reencodes {msg msg' : MessageStream} {i : Interaction} {op : UInt8}
    (old : Interaction) (hop : msg.unread.head? = some op)
    (hs : stringless (directionOf ⟨op⟩) (convert ⟨op⟩) = true)
    (hd : decodeInteraction .leftFirst (msg, old) = .ok () (msg', i))
    (hg : msg'.good = true) :
    ∃ used, msg.unread = used ++ msg'.unread
      ∧ ∀ out : MessageStream, out.Writable →
        encodeInteraction i out = .ok () (out.append used) := by
  obtain ⟨op', hop', -, hi⟩ := decodeInteraction_ok hd
  obtain rfl : op = op' := Option.some.inj (hop.symm.trans hop'.2.1)
  obtain ⟨-, sent, used, hsent, ⟨rest, hu⟩, rfl, rfl⟩ := sent_of_accepted hd hg
  have hclass : isStringless sent = true := by
    rw [← isStringless_received .leftFirst sent, hi, isStringless_ofHeld, hs]
  -- without strings nothing is lost on the way
  rw [received_of_stringless hclass]
  obtain ⟨hc, henc⟩ := sentAs_of_stringless hclass hsent
  refine ⟨used, by rw [unread_advance, ← hu, List.drop_left], fun out hw => ?_⟩
  exact (encodes_interaction hc).appends used (sentAs_iff.mp ⟨hc, henc⟩) out hw

/-- A read response with two bytes of data, and a byte that follows it. -/
theorem decoded_reencodes_read :
    ∃ msg' i, decodeInteraction .leftFirst
        ((MessageStream.new fun _ => 0).setStr [117, 1, 0, 2, 0, 0, 0, 200, 0, 120], .new)
          = .ok () (msg', i)
      ∧ msg'.unread = [120]
      ∧ ∃ used, [117, 1, 0, 2, 0, 0, 0, 200, 0, 120] = used ++ msg'.unread
        ∧ ∀ out : MessageStream, out.Writable →
          encodeInteraction i out = .ok () (out.append used) := by
  have hop : ((MessageStream.new fun _ => 0).setStr
      [117, 1, 0, 2, 0, 0, 0, 200, 0, 120]).unread.head? = some 117 := rfl
  exact ⟨_, _, rfl, rfl, decoded_reencodes .new hop rfl rfl rfl⟩

end KzrUntrustedInput
