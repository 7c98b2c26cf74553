import Kzr.AcceptanceProofs
import Kzr.RefusalProofs
import Kzr.SenderProofs

/-! # Interactions from one end to the other

    An application that talks over a connection empties its message stream,
    encodes an interaction into it and writes the stream.  Either of the last two
    may throw: the encoder when a field is over its limit, and then nothing goes
    out, the connection when not all of the frame does.

    Whatever the application goes on with, the other end gets exactly the
    interactions that were posted without an exception, in order and each once, as
    long as no write failed half way; and decodes each of them from its frame. -/

namespace KzrPosting

open Framing Runs KzrMessageStream KzrPrimitive KzrInteraction KzrInteractionCodec KzrConnection
open KzrFileHandleConnection KzrSender KzrRefusal KzrMessage KzrAcceptance
open KzrEncodable (visit draft)

variable {σ : Type}

/-! ## Posting -/

/-- Encode an interaction on the emptied stream and write the stream. -/
def post (c : Connection σ) (i : Interaction) (state : σ × MessageStream) :
    Option Exception × (σ × MessageStream) :=
  match encodeInteraction i state.2.reset with
  | .error ex msg => (some ex, (state.1, msg))
  | .ok () msg    => ((attempt c msg state.1).1, ((attempt c msg state.1).2, msg))

/-- The bytes of an interaction. -/
def payload (i : Interaction) : Bytes := (visit draft i).written

/-- What is put on an emptied stream is all there is on it. -/
theorem puts_reset {msg : MessageStream} (h : msg.Writable) (bs : Bytes) :
    (puts msg.reset bs).Writable ∧ (puts msg.reset bs).str = bs := by
  have hw : msg.reset.Writable := ⟨h.good, rfl⟩
  by_cases hbs : bs = []
  · rw [hbs, puts_nil]
    exact ⟨hw, rfl⟩
  · rw [puts_of_ne_nil hbs, KzrQueue.writeAll_of_writable hw]
    exact ⟨writable_append hw bs, by rw [str_append]; rfl⟩

/-- An interaction is posted by writing its bytes, unless it is refused before. -/
theorem post_cases (c : Connection σ) (i : Interaction) (world : σ) {msg : MessageStream}
    (h : msg.Writable) :
    ∃ msg', msg'.Writable ∧ msg'.str = payload i
      ∧ post c i (world, msg) = match visit refusal i with
        | some ex => (some ex, (world, msg'))
        | none    => ((attempt c msg' world).1, ((attempt c msg' world).2, msg')) := by
  obtain ⟨hw, hstr⟩ := puts_reset h (payload i)
  refine ⟨_, hw, hstr, ?_⟩
  rw [post, encodeInteraction_carries_out]
  cases visit refusal i with
  | none => rfl
  | some ex => rfl

/-! ## A poster is a sender -/

/-- The interaction is refused by its encoder, or its bytes are refused or counted by
    the connection. -/
def Postable (i : Interaction) : Prop := visit refusal i = none → Countable (payload i)

theorem sends_post (kernel : Kernel σ) (this : FileHandleConnection) :
    Sends frames Postable (fun s => s.2.Writable) (fun s => s.1.wire this.handle)
      (fun i => [payload i]) (post (connectionOn kernel this)) := by
  have hsends := sends_attempt kernel this
  refine ⟨?_, ?_, ?_⟩
  · rintro i ⟨lines, msg⟩ hw hi
    obtain ⟨msg', hw', -, hpost⟩ := post_cases (connectionOn kernel this) i lines hw
    rw [hpost]
    cases visit refusal i <;> exact hw'
  · rintro i ⟨lines, msg⟩ hw hi
    obtain ⟨msg', -, hstr, hpost⟩ := post_cases (connectionOn kernel this) i lines hw
    rw [hpost]
    cases hr : visit refusal i with
    | some ex => exact List.prefix_rfl
    | none =>
        have hcount : Countable msg'.str := hstr ▸ hi hr
        exact hsends.grows msg' lines trivial hcount
  · rintro i ⟨lines, msg⟩ hw hi hnone
    obtain ⟨msg', -, hstr, hpost⟩ := post_cases (connectionOn kernel this) i lines hw
    rw [hpost] at hnone ⊢
    cases hr : visit refusal i with
    | some ex =>
        rw [hr] at hnone
        cases hnone
    | none =>
        rw [hr] at hnone
        have hcount : Countable msg'.str := hstr ▸ hi hr
        rw [← hstr]
        exact hsends.whole msg' lines trivial hcount hnone

/-! ## The other end -/

/-- A stream given these bytes is decoded as the interaction, to its end, whatever
    was decoded into before. -/
def Delivers (order : ArgOrder) (bs : Bytes) (i : Interaction) : Prop :=
  ∀ msg : MessageStream, msg.good = true → ∀ old, ∃ msg',
    decodeInteraction order (msg.setStr bs, old) = .ok () (msg', received order i)
      ∧ msg'.good = true ∧ msg'.unread = []

/-- The bytes of an interaction that is not refused are its encoding. -/
theorem payload_eq {i : Interaction} (hc : i.Constructed) (hr : visit refusal i = none) :
    interactionFormat.encode i = some (payload i) := by
  have hw : (MessageStream.new fun _ => 0).Writable := writable_new _
  obtain ⟨-, hputs⟩ := puts_reset hw (payload i)
  have hrun : encodeInteraction i (MessageStream.new fun _ => 0)
      = .ok () (puts (MessageStream.new fun _ => 0).reset (payload i)) := by
    rw [encodeInteraction_carries_out, hr]
    rfl
  obtain ⟨bs, henc, happend⟩ := (encodes_interaction hc).of_ok hw hrun
  rw [henc, ← hputs, happend, str_append]
  rfl

theorem delivers_payload (order : ArgOrder) {i : Interaction} (hc : i.Constructed)
    (hr : visit refusal i = none) : Delivers order (payload i) i := by
  intro msg hg old
  have hg' : (msg.setStr (payload i)).good = true := hg
  have hu : (msg.setStr (payload i)).unread = payload i ++ [] := (List.append_nil _).symm
  refine ⟨_, decodeInteraction_of_encoding order (payload_eq hc hr) hg' hu old, hg', ?_⟩
  rw [unread_advance, hu, List.append_nil, List.drop_length]

/-- What did not throw was not refused. -/
theorem refusal_of_posted {c : Connection σ} {i : Interaction} {world : σ} {msg : MessageStream}
    (hw : msg.Writable) (h : (post c i (world, msg)).1 = none) : visit refusal i = none := by
  obtain ⟨msg', -, -, hpost⟩ := post_cases c i world hw
  rw [hpost] at h
  cases hr : visit refusal i with
  | none => rfl
  | some ex =>
      rw [hr] at h
      cases h

/-- **INTERACTIONS ARRIVE**: of any interactions posted one after the other, the
    other end receives exactly the encodings of those that were posted without an
    exception, in order and each once, if and only if no write failed after some of
    its bytes had gone out; and each of these decodes to what is received of the
    interaction posted. -/
theorem interactions_arrive (kernel : Kernel σ) (this : FileHandleConnection) (order : ArgOrder)
    {is : List Interaction} (his : ∀ i ∈ is, i.Constructed ∧ Postable i) (lines : Lines σ)
    {msg : MessageStream} (hw : msg.Writable) :
    let step := post (connectionOn kernel this)
    let wire := fun s : Lines σ × MessageStream => s.1.wire this.handle
    ∃ sent, wire (run (next step) is (lines, msg)) = wire (lines, msg) ++ sent
      ∧ (∀ i ∈ succeeded step is (lines, msg),
        SentAs i (payload i) ∧ Delivers order (payload i) i)
      ∧ (frames.receive sent = ((succeeded step is (lines, msg)).map payload, [])
        ↔ EveryStep (next step) (Clean wire step) is (lines, msg)) := by
  intro step wire
  have hsends := sends_post kernel this
  have hpostable : ∀ i ∈ is, Postable i := fun i hi => (his i hi).2
  obtain ⟨sent, hwire, hiff⟩ := hsends.receive_iff hpostable (s := (lines, msg)) hw
  rw [← List.map_eq_flatMap] at hiff
  refine ⟨sent, hwire, ?_, hiff⟩
  intro i hi
  obtain ⟨hmem, ⟨lines', msg'⟩, hw', hnone⟩ := hsends.of_succeeded hpostable hw hi
  have hc := (his i hmem).1
  have hr := refusal_of_posted hw' hnone
  exact ⟨sentAs_iff.mpr (payload_eq hc hr), delivers_payload order hc hr⟩

/-- A flush request is nine bytes on the wire. -/
theorem interactions_arrive_flush :
    let i : Interaction := .request ⟨.Flush, ({ oldtag := 513 } : FlushRequest)⟩
    let step := post (connectionOn (atMost 64) ⟨3, true⟩)
    let wire := fun s : Lines Unit × MessageStream => s.1.wire 3
    let start : Lines Unit × MessageStream := (⟨(), fun _ => []⟩, .new fun _ => 0)
    wire (run (next step) [i] start) = [9, 0, 0, 0, 108, 255, 255, 1, 2]
      ∧ ∃ sent, wire (run (next step) [i] start) = wire start ++ sent
        ∧ (∀ j ∈ succeeded step [i] start, SentAs j (payload j) ∧ Delivers .leftFirst (payload j) j)
        ∧ (frames.receive sent = ((succeeded step [i] start).map payload, [])
          ↔ EveryStep (next step) (Clean wire step) [i] start) :=
  have hpostable : ∀ i ∈ [Interaction.request ⟨.Flush, ({ oldtag := 513 } : FlushRequest)⟩],
      i.Constructed ∧ Postable i :=
    List.forall_mem_singleton.mpr ⟨rfl, fun _ => Or.inl (by decide)⟩
  ⟨by decide, interactions_arrive (atMost 64) ⟨3, true⟩ .leftFirst hpostable ⟨(), fun _ => []⟩
    (writable_new _)⟩

end KzrPosting
