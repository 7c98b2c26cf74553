import Kzr.MessageCodecProofs
import Kzr.InteractionProofs

/-! # The dispatchers and the format of an interaction

    The three decoders differ only in what they look at.  Each is specified by
    one lemma for the streams it accepts — good, with a first byte from the
    table of operations — and one for all the others, which it rejects.

    On the encoding side the formats of the 28 classes make one format,
    dispatched by the first byte: an operation determines the direction and the
    kind, so no two classes share one. -/

namespace KzrInteractionCodec

open WireFormat LittleEndian KzrOperation KzrMessageStream KzrPrimitive KzrCodec KzrMessage
open KzrMessageCodec KzrInteraction

variable {dir : MessageDirection} {kind : ConceptualOperation}

/-! ## The codec of the alternative held -/

/-- The codec of the class bound to a kind. -/
def codec : (dir : MessageDirection) → (kind : ConceptualOperation) → kind ≠ .Undefined →
    MessageCodec (BoundType dir kind)
  | .Request, .Version, _    => versionMessage .Request
  | .Request, .Auth, _       => authenticationRequest
  | .Request, .Attach, _     => attachRequest
  | .Request, .Error, _      => message .Error .Request
  | .Request, .Flush, _      => flushRequest
  | .Request, .Walk, _       => walkRequest
  | .Request, .Open, _       => openRequest
  | .Request, .Create, _     => createRequest
  | .Request, .Read, _       => readRequest
  | .Request, .Write, _      => writeRequest
  | .Request, .Clunk, _      => fidRequest .Clunk
  | .Request, .Remove, _     => fidRequest .Remove
  | .Request, .Stat, _       => fidRequest .Stat
  | .Request, .WStat, _      => wStatRequest
  | .Response, .Version, _   => versionMessage .Response
  | .Response, .Auth, _      => authenticationResponse
  | .Response, .Attach, _    => attachResponse
  | .Response, .Error, _     => errorResponse
  | .Response, .Flush, _     => message .Flush .Response
  | .Response, .Walk, _      => walkResponse
  | .Response, .Open, _      => openOrCreateResponse .Open
  | .Response, .Create, _    => openOrCreateResponse .Create
  | .Response, .Read, _      => readResponse
  | .Response, .Write, _     => writeResponse
  | .Response, .Clunk, _     => message .Clunk .Response
  | .Response, .Remove, _    => message .Remove .Response
  | .Response, .Stat, _      => statResponse
  | .Response, .WStat, _     => message .WStat .Response
  | .Request, .Undefined, h  => absurd rfl h
  | .Response, .Undefined, h => absurd rfl h

/-- **THE CODECS ARE THE CODE**: each class's `encode` is the encoder of its
    codec. -/
theorem encodeHeld_eq (h : kind ≠ .Undefined) (held : BoundType dir kind) :
    encodeHeld dir kind held = (codec dir kind h).put held := by
  cases dir <;> cases kind <;> first | rfl | exact absurd rfl h

/-- Each class's `decode` is the decoder of its codec; none of them throws. -/
theorem decodeHeld_eq (order : ArgOrder) (h : kind ≠ .Undefined) (held : BoundType dir kind)
    (msg : MessageStream) :
    decodeHeld order dir kind (msg, held)
      = .ok () (((codec dir kind h).get order held msg).2,
          ((codec dir kind h).get order held msg).1) := by
  cases dir <;> cases kind <;> first | rfl | exact absurd rfl h

theorem heldHeader_eq (h : kind ≠ .Undefined) (held : BoundType dir kind) :
    heldHeader dir kind held = (codec dir kind h).header held := by
  cases dir <;> cases kind <;> first | rfl | exact absurd rfl h

/-- An undefined message is never sent. -/
theorem encodes_undefined (held : BoundType dir .Undefined) :
    Encodes (encodeHeld dir .Undefined held) none := by
  cases dir with
  | Request => exact encodes_throw ⟨"Undefined request!"⟩
  | Response => exact encodes_throw ⟨"Undefined response!"⟩

/-- An encoder that returns normally is that of a codec, and has appended the
    encoding of its format. -/
theorem encodeHeld_ok {held : BoundType dir kind} {msg msg' : MessageStream} (hw : msg.Writable)
    (h : encodeHeld dir kind held msg = .ok () msg') :
    ∃ hk : kind ≠ .Undefined, ∃ bs,
      (codec dir kind hk).format.encode held = some bs ∧ msg' = msg.append bs := by
  by_cases hk : kind = .Undefined
  · subst hk
    obtain ⟨bs, hbs, -⟩ := (encodes_undefined held).of_ok hw h
    exact nomatch hbs
  · rw [encodeHeld_eq hk] at h
    exact ⟨hk, ((codec dir kind hk).encodes held).of_ok hw h⟩

/-! ## Peeking -/

/-- At a byte, `peek` shows it and changes nothing — unless the byte is zero. -/
theorem peek_cons {msg : MessageStream} {op : UInt8} {rest : Bytes}
    (hg : msg.good = true) (hu : msg.unread = op :: rest) :
    peek msg = (if op = 0 then none else some op, msg) := by
  have hpeek : msg.storage.peek = (some op, msg.storage) := by
    have hg' : msg.storage.good = true := hg
    have hu' : msg.storage.unread = op :: rest := hu
    simp only [CharStream.StringStream.peek, hg', hu', if_true]
  have heof : msg.storage.eof = false := by
    have hg' : msg.storage.good = true := hg
    simp only [CharStream.StringStream.good, Bool.and_eq_true, Bool.not_eq_true'] at hg'
    exact hg'.1.1
  -- the character is compared with a lowered flag, which is 0 as an `int`
  simp only [peek, hpeek, heof, Bool.false_eq_true, if_false]
  by_cases h0 : op = 0
  · subst h0
    rfl
  · have hne : (op.toNat : Int) ≠ 0 := by
      intro h
      exact h0 (UInt8.toNat_inj.mp (Int.ofNat.inj h))
    have hcast : UInt8.ofInt (op.toNat : Int) = op := by
      apply UInt8.toNat_inj.mp
      have hlt := op.toNat_lt
      rw [UInt8.ofInt, UInt8.toNat_ofNat']
      omega
    rw [if_pos hne, if_neg h0, hcast]

/-- With nothing to see, `peek` shows the end-of-file value as a byte. -/
theorem peek_exhausted {msg : MessageStream} (h : msg.good = false ∨ msg.unread = []) :
    (peek msg).1 = some 0xFF ∧ (peek msg).2.good = false := by
  have hpeek : msg.storage.peek.1 = none ∧ msg.storage.peek.2.good = false := by
    by_cases hg : msg.storage.good = true
    · have hu : msg.storage.unread = [] :=
        h.resolve_left (fun hf => Bool.false_ne_true (hf.symm.trans hg))
      simp [CharStream.StringStream.peek, hg, hu]
      rfl
    · simp only [CharStream.StringStream.peek, hg]
      simp [CharStream.StringStream.good]
  obtain ⟨hnone, hbad⟩ := hpeek
  refine ⟨?_, ?_⟩
  -- -1 differs from the flag, up or down, and is 0xFF as a byte
  · cases heof : msg.storage.peek.2.eof <;> simp [peek, hnone, heof]
    all_goals rfl
  · exact hbad

/-- What `peek` has to show: the first unread byte, or 0xFF where there is none
    to be had. -/
def glimpse (msg : MessageStream) : UInt8 :=
  if msg.good then msg.unread.headD 0xFF else 0xFF

/-- A peek answers the byte in front, unless that is zero. -/
theorem peek_fst (msg : MessageStream) :
    (peek msg).1 = if glimpse msg = 0 then none else some (glimpse msg) := by
  by_cases hg : msg.good = true
  · cases hu : msg.unread with
    | nil =>
        have hseen : glimpse msg = 0xFF := by
          rw [glimpse, if_pos hg, hu]
          rfl
        rw [(peek_exhausted (Or.inr hu)).1, hseen, if_neg (by decide)]
    | cons op rest =>
        have hseen : glimpse msg = op := by
          rw [glimpse, if_pos hg, hu]
          rfl
        rw [peek_cons hg hu, hseen]
  · have hseen : glimpse msg = 0xFF := by rw [glimpse, if_neg hg]
    rw [(peek_exhausted (Or.inl (by simpa using hg))).1, hseen, if_neg (by decide)]

theorem unread_peek (msg : MessageStream) : (peek msg).2.unread = msg.unread :=
  CharStream.unread_peek msg.storage

/-! ## The dispatchers -/

/-- The stream is good and begins with an operation of the table. -/
def Announces (msg : MessageStream) (op : UInt8) : Prop :=
  msg.good = true ∧ msg.unread.head? = some op ∧ convert ⟨op⟩ ≠ .Undefined

theorem Announces.unread {msg : MessageStream} {op : UInt8} (h : Announces msg op) :
    ∃ rest, msg.unread = op :: rest := by
  obtain ⟨-, hhead, -⟩ := h
  cases hu : msg.unread with
  | nil =>
      rw [hu] at hhead
      exact nomatch hhead
  | cons b rest =>
      rw [hu] at hhead
      cases hhead
      exact ⟨rest, rfl⟩

/-- A peek at an announced operation shows it and does nothing. -/
theorem Announces.peek {msg : MessageStream} {op : UInt8} (h : Announces msg op) :
    peek msg = (some op, msg) := by
  obtain ⟨rest, hu⟩ := h.unread
  have h0 : op ≠ 0 := fun h0 => code_ne_zero h.2.2 h0
  rw [peek_cons h.1 hu, if_neg h0]

/-- A stream announces at most one operation. -/
theorem Announces.unique {msg : MessageStream} {op op' : UInt8} (h : Announces msg op)
    (h' : Announces msg op') : op = op' :=
  Option.some.inj (h.2.1.symm.trans h'.2.1)

/-- What is seen on a stream that announces nothing is no operation. -/
theorem peek_of_not_announces {msg : MessageStream} (h : ∀ op, ¬ Announces msg op) {op : UInt8}
    (hpeek : (KzrMessageStream.peek msg).1 = some op) : convert ⟨op⟩ = .Undefined := by
  by_cases hg : msg.good = true
  · cases hu : msg.unread with
    | nil =>
        -- 0xFF is outside the table, so the dispatch fails all the same
        rw [(peek_exhausted (Or.inr hu)).1] at hpeek
        cases hpeek
        rfl
    | cons b rest =>
        rw [peek_cons hg hu] at hpeek
        by_cases h0 : b = 0
        · rw [if_pos h0] at hpeek
          exact nomatch hpeek
        · rw [if_neg h0] at hpeek
          cases hpeek
          by_contra hk
          exact h op ⟨hg, by rw [hu]; rfl, hk⟩
  · rw [(peek_exhausted (Or.inl (by simpa using hg))).1] at hpeek
    cases hpeek
    rfl

/-- Peeking does not make a stream announce an operation. -/
theorem not_announces_peek {msg : MessageStream} (h : ∀ op, ¬ Announces msg op) (op : UInt8) :
    ¬ Announces (KzrMessageStream.peek msg).2 op := by
  by_cases hg : msg.good = true
  · cases hu : msg.unread with
    | nil =>
        intro hop
        have hbad := (peek_exhausted (Or.inr hu)).2
        rw [hop.1] at hbad
        exact nomatch hbad
    | cons b rest =>
        rw [peek_cons hg hu]
        exact h op
  · intro hop
    have hoff : msg.good = false ∨ msg.unread = [] := Or.inl (by simpa using hg)
    have hbad := (peek_exhausted hoff).2
    rw [hop.1] at hbad
    exact nomatch hbad

/-- **DISPATCH BY KIND**: the kind announced is emplaced and its decoder runs. -/
theorem decodeVariant_of_announces (order : ArgOrder) {msg : MessageStream} {op : UInt8}
    (h : Announces msg op) (old : Variant dir) :
    decodeVariant order dir (msg, old)
      = .ok () (((codec dir _ h.2.2).get order (newHeld dir _) msg).2,
          ⟨_, ((codec dir _ h.2.2).get order (newHeld dir _) msg).1⟩) := by
  have hk := h.2.2
  simp only [decodeVariant, h.peek]
  rw [emplace, decodeHeld_eq order hk]

/-- Everything else is rejected, with the target as it was. -/
theorem decodeVariant_of_not_announces (order : ArgOrder) {msg : MessageStream}
    (h : ∀ op, ¬ Announces msg op) (old : Variant dir) :
    ∃ ex, decodeVariant order dir (msg, old)
      = .error ex ((KzrMessageStream.peek msg).2, old) := by
  cases hp : KzrMessageStream.peek msg with
  | mk seen msg' =>
      cases seen with
      | none => exact ⟨_, by simp only [decodeVariant, hp]; rfl⟩
      | some op =>
          have hu := peek_of_not_announces h (congrArg Prod.fst hp)
          exact ⟨_, by simp only [decodeVariant, hp, hu]; rfl⟩

/-- A decode that returns normally ran the decoder of the kind announced. -/
theorem decodeVariant_ok {order : ArgOrder} {msg msg' : MessageStream} {old v : Variant dir}
    (hd : decodeVariant order dir (msg, old) = .ok () (msg', v)) :
    ∃ op, ∃ h : Announces msg op,
      v = ⟨_, ((codec dir _ h.2.2).get order (newHeld dir _) msg).1⟩ := by
  by_cases hann : ∃ op, Announces msg op
  · obtain ⟨op, hop⟩ := hann
    rw [decodeVariant_of_announces order hop] at hd
    injection hd with hunit hpair
    exact ⟨op, hop, (congrArg Prod.snd hpair).symm⟩
  · obtain ⟨ex, hthrow⟩ := decodeVariant_of_not_announces order (not_exists.mp hann) old
    rw [hthrow] at hd
    exact nomatch hd

/-! ## Interactions as direction, kind and message -/

/-- The interaction that holds this message. -/
def ofHeld : (dir : MessageDirection) → (kind : ConceptualOperation) → BoundType dir kind →
    Interaction
  | .Request, kind, held  => .request ⟨kind, held⟩
  | .Response, kind, held => .response ⟨kind, held⟩

/-- **DISPATCH BY DIRECTION**: the parity of the operation picks the side. -/
theorem decodeInteraction_of_announces (order : ArgOrder) {msg : MessageStream} {op : UInt8}
    (h : Announces msg op) (old : Interaction) :
    decodeInteraction order (msg, old)
      = .ok () (((codec (directionOf ⟨op⟩) _ h.2.2).get order (newHeld _ _) msg).2,
          ofHeld _ _ ((codec (directionOf ⟨op⟩) _ h.2.2).get order (newHeld _ _) msg).1) := by
  simp only [decodeInteraction, h.peek]
  cases hr : isRequest ⟨op⟩ with
  | true =>
      have hd : directionOf ⟨op⟩ = .Request := directionOf_eq_request.mpr hr
      rw [hd]
      simp only [if_true, emplace, decodeRequest, decodeVariant_of_announces order h]
      rfl
  | false =>
      have hd : directionOf ⟨op⟩ = .Response := if_neg (by simp [hr])
      rw [hd]
      simp only [Bool.false_eq_true, if_false, emplace, decodeResponse,
        decodeVariant_of_announces order h]
      rfl

/-- An interaction that has just been given this side. -/
def emplaced : MessageDirection → Interaction
  | .Request  => .request (.new .Request)
  | .Response => .response (.new .Response)

/-- What a rejected stream leaves in an interaction: the old value if nothing
    was seen, and otherwise a new one of the side of the byte seen. -/
theorem decodeInteraction_rejected (order : ArgOrder) {msg : MessageStream}
    (h : ∀ op, ¬ Announces msg op) (old : Interaction) :
    ∃ ex msg', decodeInteraction order (msg, old)
        = .error ex (msg', if glimpse msg = 0 then old else emplaced (directionOf ⟨glimpse msg⟩))
      ∧ msg'.unread = msg.unread := by
  have hfst := peek_fst msg
  have hunread := unread_peek msg
  have hnone := not_announces_peek h
  cases hp : KzrMessageStream.peek msg with
  | mk seen msg' =>
      rw [hp] at hfst hunread hnone
      by_cases h0 : glimpse msg = 0
      · rw [if_pos h0] at hfst ⊢
        obtain rfl : seen = none := hfst
        exact ⟨_, msg', by simp only [decodeInteraction, hp]; rfl, hunread⟩
      · rw [if_neg h0] at hfst ⊢
        obtain rfl : seen = some (glimpse msg) := hfst
        -- the new alternative is in place when the delegate throws
        have hlast := (unread_peek msg').trans hunread
        cases hr : isRequest ⟨glimpse msg⟩ with
        | true =>
            rw [directionOf_eq_request.mpr hr]
            obtain ⟨ex, hex⟩ := decodeVariant_of_not_announces order hnone (Variant.new .Request)
            exact ⟨ex, _, by simp only [decodeInteraction, hp, hr, if_true, emplace,
              decodeRequest, hex]; rfl, hlast⟩
        | false =>
            rw [directionOf_eq_response.mpr (by rw [isResponse_eq, hr]; rfl)]
            obtain ⟨ex, hex⟩ := decodeVariant_of_not_announces order hnone (Variant.new .Response)
            exact ⟨ex, _, by simp only [decodeInteraction, hp, hr, Bool.false_eq_true, if_false,
              emplace, decodeResponse, hex]; rfl, hlast⟩

/-- A stream that announces nothing makes the decoder throw. -/
theorem decodeInteraction_of_not_announces (order : ArgOrder) {msg : MessageStream}
    (h : ∀ op, ¬ Announces msg op) (old : Interaction) :
    ∃ ex s, decodeInteraction order (msg, old) = .error ex s := by
  obtain ⟨ex, msg', hthrow, -⟩ := decodeInteraction_rejected order h old
  exact ⟨ex, _, hthrow⟩

/-- A decode that returns normally ran the decoder of the class announced. -/
theorem decodeInteraction_ok {order : ArgOrder} {msg msg' : MessageStream} {old i : Interaction}
    (hd : decodeInteraction order (msg, old) = .ok () (msg', i)) :
    ∃ op, ∃ h : Announces msg op,
      msg' = ((codec (directionOf ⟨op⟩) _ h.2.2).get order (newHeld _ _) msg).2
        ∧ i = ofHeld _ _ ((codec (directionOf ⟨op⟩) _ h.2.2).get order (newHeld _ _) msg).1 := by
  by_cases hann : ∃ op, Announces msg op
  · obtain ⟨op, hop⟩ := hann
    rw [decodeInteraction_of_announces order hop] at hd
    injection hd with hunit hpair
    injection hpair with hmsg hi
    exact ⟨op, hop, hmsg.symm, hi.symm⟩
  · obtain ⟨ex, s, hthrow⟩ := decodeInteraction_of_not_announces order (not_exists.mp hann) old
    rw [hthrow] at hd
    exact nomatch hd

/-! ## The format of an interaction -/

/-- The message held, if it is of this direction and kind. -/
def heldAt : (dir : MessageDirection) → (kind : ConceptualOperation) → Interaction →
    Option (BoundType dir kind)
  | .Request, kind, .request ⟨k, held⟩   => if h : k = kind then some (h ▸ held) else none
  | .Response, kind, .response ⟨k, held⟩ => if h : k = kind then some (h ▸ held) else none
  | .Request, _, .response _             => none
  | .Response, _, .request _             => none

theorem heldAt_ofHeld (dir : MessageDirection) (kind : ConceptualOperation)
    (held : BoundType dir kind) : heldAt dir kind (ofHeld dir kind held) = some held := by
  cases dir <;> exact dif_pos rfl

theorem ofHeld_heldAt {i : Interaction} {held : BoundType dir kind}
    (h : heldAt dir kind i = some held) : i = ofHeld dir kind held := by
  cases dir <;> rcases i with ⟨k, held'⟩ | ⟨k, held'⟩
  · exact nomatch h
  · by_cases hk : k = kind
    · subst hk
      rw [heldAt, dif_pos rfl] at h
      cases h
      rfl
    · rw [heldAt, dif_neg hk] at h
      exact nomatch h
  · by_cases hk : k = kind
    · subst hk
      rw [heldAt, dif_pos rfl] at h
      cases h
      rfl
    · rw [heldAt, dif_neg hk] at h
      exact nomatch h
  · exact nomatch h

theorem exists_ofHeld (i : Interaction) :
    ∃ dir kind, ∃ held : BoundType dir kind, i = ofHeld dir kind held := by
  rcases i with ⟨kind, held⟩ | ⟨kind, held⟩
  · exact ⟨.Response, kind, held, rfl⟩
  · exact ⟨.Request, kind, held, rfl⟩

theorem getOperation_ofHeld (held : BoundType dir kind) :
    (ofHeld dir kind held).getOperation = (heldHeader dir kind held).op := by
  cases dir <;> rfl

/-- To be constructed is to carry the operation of one's class. -/
theorem constructed_ofHeld (held : BoundType dir kind) :
    (ofHeld dir kind held).Constructed
      ↔ (heldHeader dir kind held).op = RawOperation kind dir := by
  cases dir <;> exact Iff.rfl

theorem encodeInteraction_ofHeld (held : BoundType dir kind) :
    encodeInteraction (ofHeld dir kind held) = encodeHeld dir kind held := by
  cases dir <;> rfl

/-- Whatever operation it carries, an interaction that encodes begins with it. -/
theorem encodeInteraction_head {i : Interaction} {msg msg' : MessageStream} (hw : msg.Writable)
    (h : encodeInteraction i msg = .ok () msg') :
    ∃ bs, msg' = msg.append bs ∧ bs.head? = some i.getOperation.code := by
  obtain ⟨dir, kind, held, rfl⟩ := exists_ofHeld i
  rw [encodeInteraction_ofHeld] at h
  obtain ⟨hk, bs, henc, rfl⟩ := encodeHeld_ok hw h
  refine ⟨bs, rfl, ?_⟩
  rw [(codec dir kind hk).head henc, ← heldHeader_eq, getOperation_ofHeld]

/-- The format of one alternative, for messages with the operation of their
    class. -/
def alternative (dir : MessageDirection) (kind : ConceptualOperation) (h : kind ≠ .Undefined) :
    Format UInt8 Interaction :=
  ((codec dir kind h).format.restrict
    (fun held => (heldHeader dir kind held).op = RawOperation kind dir)).alternative
    (ofHeld dir kind) (heldAt dir kind) (heldAt_ofHeld dir kind) ofHeld_heldAt

theorem alternative_ofHeld (h : kind ≠ .Undefined) (held : BoundType dir kind) :
    (alternative dir kind h).encode (ofHeld dir kind held)
      = if (heldHeader dir kind held).op = RawOperation kind dir
        then (codec dir kind h).format.encode held else none := by
  simp only [alternative, Format.alternative, heldAt_ofHeld, Format.restrict, decide_eq_true_eq]

/-- What an alternative encodes is one of its own messages. -/
theorem alternative_encode {h : kind ≠ .Undefined} {i : Interaction} {bs : Bytes}
    (henc : (alternative dir kind h).encode i = some bs) :
    ∃ held, i = ofHeld dir kind held
      ∧ (heldHeader dir kind held).op = RawOperation kind dir
      ∧ (codec dir kind h).format.encode held = some bs := by
  cases hat : heldAt dir kind i with
  | none =>
      simp only [alternative, Format.alternative, hat] at henc
      cases henc
  | some held =>
      obtain rfl := ofHeld_heldAt hat
      rw [alternative_ofHeld] at henc
      by_cases hop : (heldHeader dir kind held).op = RawOperation kind dir
      · rw [if_pos hop] at henc
        exact ⟨held, rfl, hop, henc⟩
      · rw [if_neg hop] at henc
        cases henc

/-- The alternative a byte announces. -/
def pick (op : UInt8) : Option (Format UInt8 Interaction) :=
  if h : convert ⟨op⟩ ≠ .Undefined then some (alternative (directionOf ⟨op⟩) _ h) else none

/-- The operation of a class picks the class. -/
theorem pick_rawOperation (h : kind ≠ .Undefined) :
    pick (RawOperation kind dir).code = some (alternative dir kind h) := by
  cases dir <;> cases kind <;> first | rfl | exact absurd rfl h

/-- What a byte picks begins with it. -/
theorem pick_agrees {op : UInt8} {f : Format UInt8 Interaction} {i : Interaction} {bs : Bytes}
    (hf : pick op = some f) (h : f.encode i = some bs) :
    i.getOperation.code = op ∧ bs.head? = some op := by
  by_cases hk : convert ⟨op⟩ ≠ .Undefined
  · rw [pick, dif_pos hk] at hf
    cases hf
    obtain ⟨held, rfl, hop, henc⟩ := alternative_encode h
    -- the operation of the class picked is the byte itself
    have hcode : (RawOperation (convert ⟨op⟩) (directionOf ⟨op⟩)).code = op :=
      congrArg Operation.code (translateConcept_convert hk)
    refine ⟨by rw [getOperation_ofHeld, hop, hcode], ?_⟩
    rw [(codec _ _ hk).head henc, ← heldHeader_eq, hop, hcode]
  · rw [pick, dif_neg hk] at hf
    exact nomatch hf

/-- **THE WIRE FORMAT**: the 28 layouts as one format. -/
def interactionFormat : Format UInt8 Interaction :=
  Format.dispatch (fun i => i.getOperation.code) pick pick_agrees

/-- A constructed message has the encoding of its class. -/
theorem interactionFormat_ofHeld (h : kind ≠ .Undefined) {held : BoundType dir kind}
    (hop : (heldHeader dir kind held).op = RawOperation kind dir) :
    interactionFormat.encode (ofHeld dir kind held) = (codec dir kind h).format.encode held := by
  simp only [interactionFormat, Format.dispatch, getOperation_ofHeld, hop, pick_rawOperation h,
    alternative_ofHeld, if_true]

theorem interactionFormat_undefined {held : BoundType dir .Undefined}
    (hop : (heldHeader dir .Undefined held).op = RawOperation .Undefined dir) :
    interactionFormat.encode (ofHeld dir .Undefined held) = none := by
  have hpick : pick (RawOperation .Undefined dir).code = none := by cases dir <;> rfl
  simp only [interactionFormat, Format.dispatch, getOperation_ofHeld, hop, hpick]

/-- An interaction with an encoding holds a message of a protocol kind, with
    the operation of its class. -/
theorem interactionFormat_encode {i : Interaction} {bs : Bytes}
    (henc : interactionFormat.encode i = some bs) :
    ∃ dir kind, ∃ h : kind ≠ .Undefined, ∃ held, i = ofHeld dir kind held
      ∧ (heldHeader dir kind held).op = RawOperation kind dir
      ∧ (codec dir kind h).format.encode held = some bs := by
  simp only [interactionFormat, Format.dispatch] at henc
  cases hp : pick i.getOperation.code with
  | none =>
      rw [hp] at henc
      cases henc
  | some f =>
      rw [hp] at henc
      by_cases hk : convert ⟨i.getOperation.code⟩ ≠ .Undefined
      · rw [pick, dif_pos hk] at hp
        cases hp
        obtain ⟨held, hi, hop, hbs⟩ := alternative_encode henc
        exact ⟨_, _, hk, held, hi, hop, hbs⟩
      · rw [pick, dif_neg hk] at hp
        cases hp

/-- **THE ENCODER WRITES THE FORMAT**. -/
theorem encodes_interaction {i : Interaction} (h : i.Constructed) :
    Encodes (encodeInteraction i) (interactionFormat.encode i) := by
  obtain ⟨dir, kind, held, rfl⟩ := exists_ofHeld i
  have hop := (constructed_ofHeld held).mp h
  rw [encodeInteraction_ofHeld]
  by_cases hk : kind = .Undefined
  · subst hk
    rw [interactionFormat_undefined hop]
    exact encodes_undefined held
  · rw [interactionFormat_ofHeld hk hop, encodeHeld_eq hk]
    exact (codec dir kind hk).encodes held

/-! ## What a decode makes of an encoding -/

/-- The message a new alternative has become once the encoding of `held` is
    decoded into it. -/
def receivedHeld (order : ArgOrder) (dir : MessageDirection) (kind : ConceptualOperation)
    (held : BoundType dir kind) : BoundType dir kind :=
  if h : kind ≠ .Undefined then (codec dir kind h).received order (newHeld dir kind) held
  else held

/-- What a peer makes of an interaction. -/
def received (order : ArgOrder) : Interaction → Interaction
  | .response r => .response ⟨r.kind, receivedHeld order .Response r.kind r.held⟩
  | .request r  => .request ⟨r.kind, receivedHeld order .Request r.kind r.held⟩

/-- It is what it makes of the message held. -/
theorem received_ofHeld (order : ArgOrder) (held : BoundType dir kind) :
    received order (ofHeld dir kind held) = ofHeld dir kind (receivedHeld order dir kind held) := by
  cases dir <;> rfl

/-- A good stream that begins with an encoding announces the operation encoded. -/
theorem announces_of_encoding {i : Interaction} {bs rest : Bytes} {msg : MessageStream}
    (henc : interactionFormat.encode i = some bs) (hg : msg.good = true)
    (hu : msg.unread = bs ++ rest) : Announces msg i.getOperation.code := by
  obtain ⟨dir, kind, hk, held, rfl, hop, hbs⟩ := interactionFormat_encode henc
  have hhead := (codec dir kind hk).head hbs
  rw [← heldHeader_eq] at hhead
  rw [getOperation_ofHeld]
  refine ⟨hg, ?_, ?_⟩
  · rw [hu, List.head?_append, hhead]
    rfl
  · rw [hop]
    exact (convert_translateConcept kind dir).trans_ne hk

/-- The dispatch, by the operation of a class instead of the byte. -/
theorem decodeInteraction_of_rawOperation (order : ArgOrder) (h : kind ≠ .Undefined)
    {msg : MessageStream} (hann : Announces msg (RawOperation kind dir).code)
    (old : Interaction) :
    decodeInteraction order (msg, old)
      = .ok () (((codec dir kind h).get order (newHeld dir kind) msg).2,
          ofHeld dir kind ((codec dir kind h).get order (newHeld dir kind) msg).1) := by
  cases dir <;> cases kind <;> exact decodeInteraction_of_announces order hann old

/-- **THE DECODER READS THE FORMAT**: it consumes exactly one encoding. -/
theorem decodeInteraction_of_encoding (order : ArgOrder) {i : Interaction} {bs rest : Bytes}
    {msg : MessageStream} (henc : interactionFormat.encode i = some bs) (hg : msg.good = true)
    (hu : msg.unread = bs ++ rest) (old : Interaction) :
    decodeInteraction order (msg, old) = .ok () (msg.advance bs.length, received order i) := by
  have hann := announces_of_encoding henc hg hu
  obtain ⟨dir, kind, hk, held, rfl, hop, hbs⟩ := interactionFormat_encode henc
  rw [getOperation_ofHeld, hop] at hann
  have hreads := (codec dir kind hk).reads order (newHeld dir kind) held bs rest msg hbs hg hu
  rw [decodeInteraction_of_rawOperation order hk hann, hreads, received_ofHeld, receivedHeld,
    dif_pos hk]

end KzrInteractionCodec
