import Kzr.VerdictProofs
import Kzr.EncodableProofs

/-! # What is accepted, and how a session of decodes goes

    Two consequences of the verdict on arbitrary bytes.

    The decoder accepts what the encoder sends and nothing else, but for stat
    requests: a stream is decoded without running off its end exactly when it begins
    with the encoding of some interaction, or with the header and the fid of a stat
    request, any two bytes for a size, and the members of a stat.  They may even be
    too many for the encoder.

    And a reader that keeps on decoding has one fate.  It gets the messages the
    bytes begin with.  What follows them is rejected, with one exception for ever,
    or is the beginning of a message, which is made up once and then missed for
    ever. -/

namespace KzrAcceptance

open WireFormat LittleEndian KzrOperation KzrMessageStream KzrPrimitive KzrCodec KzrMessage
open KzrMessageCodec KzrInteraction KzrInteractionCodec KzrVerdict
open KzrNineP (headerBytes)

variable {dir : MessageDirection} {kind : ConceptualOperation}

/-! ## What is sent -/

/-- The interaction goes out as these bytes. -/
def SentAs (i : Interaction) (bs : Bytes) : Prop :=
  i.Constructed ∧ ∀ indeterminate,
    encodeInteraction i (.new indeterminate) = .ok () ((MessageStream.new indeterminate).append bs)

/-- The interaction is a stat request, and these are its header, its fid, any two
    bytes for a size and the members of its stat.  Each of them can be encoded; the
    request itself need not, if they are more than fit their size. -/
def SentResized (i : Interaction) (bs : Bytes) : Prop :=
  ∃ (m : WStatRequest) (size : UInt16) (members : Bytes),
    i = .request ⟨.WStat, m⟩ ∧ i.Constructed
      ∧ (∀ indeterminate, m.stat.encodeInner (.new indeterminate)
          = .ok () ((MessageStream.new indeterminate).append members))
      ∧ bs = headerBytes m.toMessageHeader ++ le 4 m.fid.toNat ++ le 2 size.toNat ++ members

theorem append_injective {indeterminate : Nat → UInt8} {as bs : Bytes}
    (h : (MessageStream.new indeterminate).append as
      = (MessageStream.new indeterminate).append bs) : as = bs := by
  have hstr := congrArg MessageStream.str h
  rwa [str_append, str_append, List.append_cancel_left_eq] at hstr

/-- Encoders that put `e` put what a new stream shows. -/
theorem encodes_new_iff {p : Put} {e : Option Bytes} (hp : Encodes p e) {bs : Bytes} :
    (∀ indeterminate, p (.new indeterminate)
        = .ok () ((MessageStream.new indeterminate).append bs))
      ↔ e = some bs := by
  constructor
  · intro h
    obtain ⟨bs', rfl, happend⟩ := hp.of_ok (writable_new fun _ => 0) (h fun _ => 0)
    rw [append_injective happend]
  · rintro rfl indeterminate
    exact hp.appends bs rfl _ (writable_new indeterminate)

theorem sentAs_iff {i : Interaction} {bs : Bytes} :
    SentAs i bs ↔ interactionFormat.encode i = some bs := by
  constructor
  · rintro ⟨hc, henc⟩
    exact (encodes_new_iff (encodes_interaction hc)).mp henc
  · intro henc
    obtain ⟨dir, kind, hk, held, rfl, hop, -⟩ := interactionFormat_encode henc
    have hc := (constructed_ofHeld held).mpr hop
    exact ⟨hc, (encodes_new_iff (encodes_interaction hc)).mpr henc⟩

theorem sizedWStat_encode (m : WStatRequest) (size : UInt16) :
    sizedWStat.encode (m.toMessage, m.toHasFid, size, m.stat)
      = (statMembers.format.encode m.stat).map fun members =>
          headerBytes m.toMessageHeader ++ le 4 m.fid.toNat ++ le 2 size.toNat ++ members := by
  have hhead : (message .WStat .Request).format.encode m.toMessage
      = some (headerBytes m.toMessageHeader) := by
    show cat (u8.encode m.op.code) (u16.encode m.tag) = _
    rw [u8_encode, u16_encode, cat_some, ← le_one]
    rfl
  show cat _ (cat (u32.encode m.fid) (cat (u16.encode size) (statMembers.format.encode m.stat))) = _
  rw [hhead, u32_encode, u16_encode]
  cases statMembers.format.encode m.stat with
  | none => rfl
  | some members => simp [List.append_assoc]

theorem sentResized_iff {i : Interaction} {bs : Bytes} :
    SentResized i bs ↔ ∃ (m : WStatRequest) (size : UInt16), i = .request ⟨.WStat, m⟩
      ∧ i.Constructed ∧ sizedWStat.encode (m.toMessage, m.toHasFid, size, m.stat) = some bs := by
  constructor
  · rintro ⟨m, size, members, hi, hc, hinner, rfl⟩
    have hmembers := (encodes_new_iff (statMembers.encodes m.stat)).mp hinner
    exact ⟨m, size, hi, hc, by rw [sizedWStat_encode, hmembers]; rfl⟩
  · rintro ⟨m, size, hi, hc, henc⟩
    rw [sizedWStat_encode] at henc
    obtain ⟨members, hmembers, rfl⟩ := Option.map_eq_some_iff.mp henc
    exact ⟨m, size, members, hi, hc,
      (encodes_new_iff (statMembers.encodes m.stat)).mpr hmembers, rfl⟩

/-! ## What is accepted -/

/-- What is read of some bytes is spelled by those that are gone, and begins with
    the operation of its header. -/
theorem readHeld_some (hk : kind ≠ .Undefined) {bs rest : Bytes} {held : BoundType dir kind}
    (h : readHeld dir kind hk bs = some (held, rest)) :
    bs.headD 0xFF = (heldHeader dir kind held).op.code ∧ ∃ used, bs = used ++ rest
      ∧ ((heldHeader dir kind held).op = RawOperation kind dir →
        SentAs (ofHeld dir kind held) used ∨ SentResized (ofHeld dir kind held) used) := by
  by_cases hstat : dir = .Request ∧ kind = .WStat
  · obtain ⟨rfl, rfl⟩ := hstat
    obtain ⟨⟨⟨parent, fid, size, stat⟩, rest'⟩, ht, hpair⟩ := Option.map_eq_some_iff.mp h
    cases hpair
    obtain ⟨used, henc, rfl⟩ := sizedWStat.encode_decode ht
    refine ⟨?_, used, rfl, fun hop => Or.inr (sentResized_iff.mpr ⟨_, size, rfl, hop, henc⟩)⟩
    obtain ⟨u, v, hu, -, rfl⟩ := cat_eq_some.mp henc
    rw [List.headD_eq_head?_getD, List.append_assoc, List.head?_append,
      (message .WStat .Request).head hu]
    rfl
  · have hread : readHeld dir kind hk = (codec dir kind hk).format.decode := by
      cases dir <;> cases kind <;> first | rfl | exact absurd ⟨rfl, rfl⟩ hstat
    rw [hread] at h
    obtain ⟨used, henc, rfl⟩ := (codec dir kind hk).format.encode_decode h
    refine ⟨?_, used, rfl, fun hop => Or.inl (sentAs_iff.mpr ?_)⟩
    · rw [List.headD_eq_head?_getD, List.head?_append, (codec dir kind hk).head henc,
        heldHeader_eq hk]
      rfl
    · rw [interactionFormat_ofHeld hk hop, henc]

theorem verdict_eq (bs : Bytes) :
    verdict bs = (verdictVariant (directionOf ⟨bs.headD 0xFF⟩) bs).map
      fun v => ofHeld _ v.kind v.held := by
  rw [verdict]
  cases directionOf ⟨bs.headD 0xFF⟩ <;> rfl

/-- A message the verdict finds has been sent as the bytes that are gone. -/
theorem verdict_message {bs rest : Bytes} {i : Interaction} (h : verdict bs = .message i rest) :
    ∃ used, bs = used ++ rest ∧ (SentAs i used ∨ SentResized i used) := by
  rw [verdict_eq, verdictVariant] at h
  by_cases h0 : bs.headD 0xFF = 0
  · rw [if_pos h0] at h
    cases h
  · rw [if_neg h0] at h
    by_cases hk : convert ⟨bs.headD 0xFF⟩ = .Undefined
    · rw [dif_pos hk] at h
      cases h
    · rw [dif_neg hk] at h
      cases hread : readHeld (directionOf ⟨bs.headD 0xFF⟩) _ hk bs with
      | none =>
          rw [hread] at h
          cases h
      | some p =>
          obtain ⟨held, rest'⟩ := p
          rw [hread] at h
          obtain ⟨rfl, rfl⟩ : ofHeld _ _ held = i ∧ rest' = rest := Verdict.message.inj h
          obtain ⟨hhead, used, hu, hsent⟩ := readHeld_some hk hread
          refine ⟨used, hu, hsent ?_⟩
          -- the first byte has picked the class, so it is the operation of the class
          have hfirst : (⟨bs.headD 0xFF⟩ : Operation) = (heldHeader _ _ held).op :=
            congrArg Operation.mk hhead
          exact hfirst.symm.trans (translateConcept_convert hk).symm

/-- Bytes that begin with the operation of a class hold what the class reads. -/
theorem verdict_of_readHeld (hk : kind ≠ .Undefined) {bs rest : Bytes} {held : BoundType dir kind}
    (hop : bs.headD 0xFF = (RawOperation kind dir).code)
    (h : readHeld dir kind hk bs = some (held, rest)) :
    verdict bs = .message (ofHeld dir kind held) rest := by
  have hraw : (⟨bs.headD 0xFF⟩ : Operation) = translateConcept kind dir :=
    congrArg Operation.mk hop
  have hkind : convert ⟨bs.headD 0xFF⟩ = kind := by rw [hraw, convert_translateConcept]
  have hdir : directionOf ⟨bs.headD 0xFF⟩ = dir := by rw [hraw, directionOf_translateConcept]
  rw [verdict_eq, hdir, verdictVariant_of_readHeld hk hkind h]
  rfl

/-- A stat request is found under any size. -/
theorem verdict_resized {i : Interaction} {used : Bytes} (h : SentResized i used) (rest : Bytes) :
    verdict (used ++ rest) = .message i rest := by
  obtain ⟨m, size, rfl, hc, henc⟩ := sentResized_iff.mp h
  have hk : ConceptualOperation.WStat ≠ .Undefined := by decide
  have hread : readHeld .Request .WStat hk (used ++ rest) = some (m, rest) :=
    Option.map_eq_some_iff.mpr ⟨_, sizedWStat.decode_encode henc rest, rfl⟩
  refine verdict_of_readHeld hk ?_ hread
  obtain ⟨u, v, hu, -, rfl⟩ := cat_eq_some.mp henc
  rw [List.headD_eq_head?_getD, List.append_assoc, List.head?_append,
    (message .WStat .Request).head hu]
  exact congrArg Operation.code hc

/-- What is accepted has been sent. -/
theorem sent_of_accepted {order : ArgOrder} {msg msg' : MessageStream} {old i : Interaction}
    (hd : decodeInteraction order (msg, old) = .ok () (msg', i)) (hg' : msg'.good = true) :
    msg.good = true ∧ ∃ sent used, (SentAs sent used ∨ SentResized sent used)
      ∧ used <+: msg.unread ∧ msg' = msg.advance used.length ∧ i = received order sent := by
  obtain ⟨op, hop, -, -⟩ := decodeInteraction_ok hd
  have hseen : seen msg = msg.unread := by rw [seen, if_pos hop.1]
  have hmet := interaction_carriesOut order msg old
  rw [hseen] at hmet
  refine ⟨hop.1, ?_⟩
  cases hv : verdict msg.unread with
  | rejected ex =>
      rw [hv] at hmet
      obtain ⟨_, _, hthrow, -⟩ := hmet
      rw [hthrow] at hd
      cases hd
  | cut =>
      rw [hv] at hmet
      obtain ⟨_, _, hcut, hbad, -⟩ := hmet
      rw [hcut] at hd
      cases hd
      rw [hbad] at hg'
      exact absurd hg' Bool.false_ne_true
  | message sent rest =>
      rw [hv] at hmet
      obtain ⟨used, hu, hok⟩ := hmet
      obtain ⟨used', hu', hsent⟩ := verdict_message hv
      obtain rfl : used = used' := List.append_cancel_right (hu.symm.trans hu')
      rw [hok] at hd
      cases hd
      exact ⟨sent, used, hsent, ⟨rest, hu.symm⟩, rfl, rfl⟩

/-- What has been sent is accepted. -/
theorem accepted_of_sent (order : ArgOrder) {msg : MessageStream} {sent : Interaction}
    {used rest : Bytes} (hsent : SentAs sent used ∨ SentResized sent used)
    (hg : msg.good = true) (hu : msg.unread = used ++ rest) (old : Interaction) :
    decodeInteraction order (msg, old)
      = .ok () (msg.advance used.length, received order sent) := by
  rcases hsent with hsent | hsent
  · exact decodeInteraction_of_encoding order (sentAs_iff.mp hsent) hg hu old
  · have hmet := interaction_carriesOut order msg old
    rw [seen, if_pos hg, hu, verdict_resized hsent] at hmet
    obtain ⟨used', hu', hok⟩ := hmet
    obtain rfl : used = used' := List.append_cancel_right (hu.symm.trans hu')
    exact hok

/-- Decode `n` times, one after the other and into one interaction, whatever
    comes of it. -/
def session (order : ArgOrder) : Nat → MessageStream × Interaction →
    List (Except Exception Interaction)
  | 0, _     => []
  | n + 1, s =>
      match decodeInteraction order s with
      | .ok () s'    => .ok s'.2 :: session order n s'
      | .error ex s' => .error ex :: session order n s'

/-- A rejected stream is rejected again. -/
theorem session_rejected (order : ArgOrder) {ex : Exception} (n : Nat) {msg : MessageStream}
    (h : verdict (seen msg) = .rejected ex) (old : Interaction) :
    session order n (msg, old) = List.replicate n (.error ex) := by
  induction n generalizing msg old with
  | zero => rfl
  | succ n ih =>
      have hmet := interaction_carriesOut order msg old
      rw [h] at hmet
      obtain ⟨msg', a, hthrow, -, hseen⟩ := hmet
      rw [session, hthrow, List.replicate_succ]
      exact congrArg _ (ih (by rw [hseen, h]) a)

end KzrAcceptance
