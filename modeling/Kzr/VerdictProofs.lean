import Kzr.CompletionProofs

/-! # What the decoders make of arbitrary bytes

    A peer sends any bytes it likes.  `verdict` says, from the bytes alone, what
    becomes of them: they are rejected for their first byte, or they begin with
    a message, or they are cut, announcing a message that they do not hold.

    The three dispatchers are shown to carry out the verdict on every stream in
    every state: a rejected stream keeps its bytes and its target, a message is
    taken off the stream exactly, and of cut bytes nothing is left but the flags.

    Between the two stands that a decoder completes what it gets: one that leaves
    its stream good has taken an encoding of its format, and one that does not has
    drained it and returns what it would of an encoding that goes on.  One class is
    out of step: the size in front of a stat is read and not used, so what is taken
    there is an encoding of the size and the members side by side. -/

namespace KzrVerdict

open WireFormat LittleEndian KzrOperation KzrMessageStream KzrPrimitive KzrCodec KzrMessage
open KzrMessageCodec KzrInteraction KzrInteractionCodec KzrCompletion
open KzrField (consists_codec consists_message consists_hasFid consists_statMembers)

variable {α β γ : Type} {dir : MessageDirection} {kind : ConceptualOperation}

/-! ## From formats to decoders -/

/-- Headers are taken as they are written. -/
theorem exact_message : Exact (message kind dir).toCodec :=
  exact_of_consists consists_message not_false

theorem exact_hasFid : Exact hasFid := exact_of_consists consists_hasFid not_false

theorem exact_statMembers : Exact statMembers := exact_of_consists consists_statMembers not_false

/-- Every class but the one with a stat takes what it writes. -/
theorem exact_codec (hk : kind ≠ .Undefined) (hstat : ¬ (dir = .Request ∧ kind = .WStat)) :
    Exact (codec dir kind hk).toCodec :=
  exact_of_consists (consists_codec hk) hstat

/-- On a good stream a decoder does what `read` says of the bytes: it takes a
    message off the stream, or it drains it and returns what it would of a message
    that begins with what there was. -/
structure Follows (get : ArgOrder → α → Get α) (read : Bytes → Option (α × Bytes))
    (received : ArgOrder → α → α → α) : Prop where
  takes : ∀ order old {msg : MessageStream} {q a rest}, msg.good = true → msg.unread = q →
    read q = some (a, rest) →
    ∃ used, q = used ++ rest
      ∧ get order old msg = (received order old a, msg.advance used.length)
  cuts  : ∀ order old {msg : MessageStream} {q}, msg.good = true → msg.unread = q →
    read q = none →
    ∃ a bs, read bs = some (a, []) ∧ q <+: bs ∧ (get order old msg).1 = received order old a
      ∧ (get order old msg).2.good = false ∧ (get order old msg).2.unread = []

/-- A decoder that completes encodings of `f` and reads every one of them follows
    the decoder of `f`. -/
theorem follows_format (back : β → α) {get : ArgOrder → α → Get α} {f : Format UInt8 β}
    {received : ArgOrder → α → α → α}
    (hcompletes : ∀ order old, Completes (get order old) fun a bs =>
      ∃ b, f.encode b = some bs ∧ a = received order old (back b))
    (hreads : ∀ order old b, Reads (get order old) (f.encode b) (received order old (back b))) :
    Follows get (fun bs => (f.decode bs).map fun p => (back p.1, p.2)) received where
  takes := by
    intro order old msg q a rest hg hu hread
    obtain ⟨⟨b, rest'⟩, hb, hpair⟩ := Option.map_eq_some_iff.mp hread
    cases hpair
    obtain ⟨used, henc, rfl⟩ := f.encode_decode hb
    exact ⟨used, rfl, hreads order old b used rest' msg henc hg hu⟩
  cuts := by
    rintro order old msg q hg rfl hread
    obtain ⟨bs, ⟨b, hb, ha⟩, hgives⟩ := hcompletes order old msg
    cases hgives with
    | whole _ _ hu =>
        -- a stream left good would have begun with an encoding
        rw [hu, f.decode_encode hb] at hread
        exact nomatch hread
    | cut _ hbad hnil hcut =>
        have hdecode := f.decode_encode hb []
        rw [List.append_nil] at hdecode
        exact ⟨back b, bs, by rw [hdecode]; rfl, hcut, ha, hbad, hnil⟩
    | closed hbad => exact nomatch hg.symm.trans hbad

/-- A decoder that takes what is written follows the decoder of its format. -/
theorem follows_exact {c : Codec α} (hc : Exact c) :
    Follows c.get c.format.decode c.received := by
  have h := follows_format id hc c.reads
  simpa using h

/-! ## The stat request -/

/-- A stat request with the size that came with its stat. -/
def sizedWStat : Format UInt8 (Message .WStat .Request × HasFid × UInt16 × Stat) :=
  (message .WStat .Request).format.pair (hasFid.format.pair (u16.pair statMembers.format))

/-- The decoder forgets the size. -/
def withoutSize (t : Message .WStat .Request × HasFid × UInt16 × Stat) : WStatRequest :=
  { toMessage := t.1, toHasFid := t.2.1, stat := t.2.2.2 }

/-- The size is read, and then the members. -/
theorem decode_stat (order : ArgOrder) (old : Stat) :
    old.decode order = (decodeUInt16 >>= fun _ => statMembers.get order old) := by
  funext msg
  rfl

/-- Whatever a stat decoder gets goes on to a size and the members. -/
theorem completes_sizedStat (order : ArgOrder) (old : Stat) :
    Completes (old.decode order) (fun m bs =>
      ∃ p, (u16.pair statMembers.format).encode p = some bs
        ∧ m = statMembers.received order old p.2) := by
  rw [decode_stat]
  refine (completes_uint16.bind fun _ => exact_statMembers order old).weaken ?_
  rintro m bs ⟨size, u, v, hsize, ⟨sent, hsent, rfl⟩, rfl⟩
  refine ⟨(size, sent), ?_, rfl⟩
  show cat (u16.encode size) (statMembers.format.encode sent) = some (u ++ v)
  rw [hsize, hsent, cat_some]

/-- A size and the members, whichever size it is, are read back as the members. -/
theorem reads_sizedStat (order : ArgOrder) (old : Stat) (p : UInt16 × Stat) :
    Reads (old.decode order) ((u16.pair statMembers.format).encode p)
      (statMembers.received order old p.2) := by
  rw [decode_stat]
  exact (reads_uint16 p.1).bind (statMembers.reads order old p.2)

theorem reads_both {d : Get α} {d' : Get β} {e e' : Option Bytes} {a : α} {b : β}
    (hd : Reads d e a) (hd' : Reads d' e' b) :
    Reads (do
      let x ← d
      let y ← d'
      pure (x, y)) (cat e e') (a, b) :=
  hd.bind (hd'.last (fun y => (a, y)))

/-- What some bytes hold for the class bound to a kind.  Of a stat request the
    size is read over. -/
def readHeld : (dir : MessageDirection) → (kind : ConceptualOperation) → kind ≠ .Undefined →
    Bytes → Option (BoundType dir kind × Bytes)
  | .Request, .WStat, _ => fun bs => (sizedWStat.decode bs).map fun p => (withoutSize p.1, p.2)
  | dir, kind, hk       => (codec dir kind hk).format.decode

/-- A stat request is followed with any size in front of its stat. -/
theorem follows_wStat :
    Follows wStatRequest.get (readHeld .Request .WStat nofun) wStatRequest.received := by
  show Follows _ (fun bs => (sizedWStat.decode bs).map fun p => (withoutSize p.1, p.2)) _
  refine follows_format withoutSize ?_ ?_
  · intro order old
    refine ((exact_message order old.toMessage).bind fun parent =>
      ((exact_hasFid order old.toHasFid).bind fun fid =>
        (completes_sizedStat order old.stat).last (fun s => (fid, s))).last
          (fun b => (parent, b))).last (fun t => WStatRequest.mk t.1 t.2.1 t.2.2) |>.weaken ?_
    rintro m bs ⟨-, ⟨-, u, v, ⟨parent, hp, rfl⟩,
      ⟨-, ⟨-, w, x, ⟨fid, hf, rfl⟩, ⟨-, ⟨s, hs, rfl⟩, rfl⟩, rfl⟩, rfl⟩, rfl⟩, rfl⟩
    refine ⟨(parent, fid, s), ?_, rfl⟩
    show cat _ (cat _ ((u16.pair statMembers.format).encode s)) = some (u ++ (w ++ x))
    rw [hp, hf, hs, cat_some, cat_some]
  · intro order old t
    exact (reads_both ((message .WStat .Request).reads order old.toMessage t.1)
      (reads_both (hasFid.reads order old.toHasFid t.2.1)
        (reads_sizedStat order old.stat t.2.2))).last
          (fun t => WStatRequest.mk t.1 t.2.1 t.2.2)

/-- **EVERY CLASS FOLLOWS ITS BYTES**. -/
theorem follows_held (hk : kind ≠ .Undefined) :
    Follows (codec dir kind hk).get (readHeld dir kind hk) (codec dir kind hk).received := by
  by_cases hstat : dir = .Request ∧ kind = .WStat
  · obtain ⟨rfl, rfl⟩ := hstat
    exact follows_wStat
  · have hread : readHeld dir kind hk = (codec dir kind hk).format.decode := by
      cases dir <;> cases kind <;> first | rfl | exact absurd ⟨rfl, rfl⟩ hstat
    rw [hread]
    exact follows_exact (exact_codec hk hstat)

/-! ## The verdict -/

/-- What becomes of some bytes: they are rejected, they begin with a message, or
    they end before the message they announce does. -/
inductive Verdict (α : Type) where
  | rejected (ex : Exception)
  | message (a : α) (rest : Bytes)
  | cut

/-- The verdict on a message as the verdict on what holds it. -/
def Verdict.map (f : α → β) : Verdict α → Verdict β
  | .rejected ex    => .rejected ex
  | .message a rest => .message (f a) rest
  | .cut            => .cut

/-- The verdict of the dispatch by kind.  No bytes at all look like a byte 0xFF,
    and a byte 0 like no bytes at all. -/
def verdictVariant (dir : MessageDirection) (bs : Bytes) : Verdict (Variant dir) :=
  if bs.headD 0xFF = 0 then
    .rejected ⟨"Cannot deduce type because message is not in a good state!"⟩
  else if hk : convert ⟨bs.headD 0xFF⟩ = .Undefined then .rejected ⟨"Illegal type found!"⟩
  else
    match readHeld dir _ hk bs with
    | some (held, rest) => .message ⟨_, held⟩ rest
    | none              => .cut

/-- The verdict of the dispatch by direction. -/
def verdict (bs : Bytes) : Verdict Interaction :=
  match directionOf ⟨bs.headD 0xFF⟩ with
  | .Request  => (verdictVariant .Request bs).map .request
  | .Response => (verdictVariant .Response bs).map .response

/-- The bytes a decoder gets to see. -/
def seen (msg : MessageStream) : Bytes := if msg.good then msg.unread else []

/-- A peek shows the first byte that can be seen. -/
theorem glimpse_eq (msg : MessageStream) : glimpse msg = (seen msg).headD 0xFF := by
  by_cases hg : msg.good = true
  · rw [glimpse, seen, if_pos hg, if_pos hg]
  · rw [glimpse, seen, if_neg hg, if_neg hg]
    rfl

/-- Peeking hides nothing that could be seen. -/
theorem seen_peek (msg : MessageStream) : seen (peek msg).2 = seen msg := by
  by_cases hoff : msg.good = false ∨ msg.unread = []
  · have hbad := (peek_exhausted hoff).2
    have hnone : seen msg = [] := by
      rcases hoff with hbad0 | hu
      · rw [seen, hbad0]
        rfl
      · rw [seen, hu, ite_self]
    rw [hnone, seen, hbad]
    rfl
  · obtain ⟨hg, hu⟩ := not_or.mp hoff
    obtain ⟨op, rest, hu'⟩ := List.exists_cons_of_ne_nil hu
    rw [peek_cons (by simpa using hg) hu']

/-- The result of a decoder is what a verdict says of the stream it met: a
    rejected stream keeps its bytes, a message is taken off exactly, of cut bytes
    nothing is left but the flags. -/
def Verdict.Met (v : Verdict α) (received : α → α) (msg : MessageStream)
    (result : EStateM.Result Exception (MessageStream × α) Unit) : Prop :=
  match v with
  | .rejected ex    =>
      ∃ msg' a, result = .error ex (msg', a) ∧ msg'.unread = msg.unread ∧ seen msg' = seen msg
  | .message a rest =>
      ∃ used, msg.unread = used ++ rest
        ∧ result = .ok () (msg.advance used.length, received a)
  | .cut            =>
      ∃ msg' a, result = .ok () (msg', a) ∧ msg'.good = false ∧ msg'.unread = []

/-- A decoder carries out a verdict, whatever it decodes into. -/
def CarriesOut (decode : Decoder α) (received : α → α) (v : Verdict α) (msg : MessageStream) :
    Prop :=
  ∀ old, v.Met received msg (decode (msg, old))

/-- What a peer makes of a message of one direction. -/
def receivedVariant (order : ArgOrder) (v : Variant dir) : Variant dir :=
  ⟨v.kind, receivedHeld order dir v.kind v.held⟩

/-- An operation in front of what can be seen is announced. -/
theorem announces_of_seen {msg : MessageStream}
    (hk : convert ⟨(seen msg).headD 0xFF⟩ ≠ .Undefined) :
    Announces msg ((seen msg).headD 0xFF) ∧ seen msg = msg.unread := by
  by_cases hg : msg.good = true
  · have hseen : seen msg = msg.unread := by rw [seen, if_pos hg]
    rw [hseen] at hk ⊢
    refine ⟨⟨hg, ?_, hk⟩, rfl⟩
    cases hu : msg.unread with
    | nil =>
        rw [hu] at hk
        exact absurd rfl hk
    | cons op rest => rfl
  · -- 0xFF is no operation
    rw [seen, if_neg hg] at hk
    exact absurd rfl hk

/-- The first byte picks the class. -/
theorem verdictVariant_of_readHeld (hk : kind ≠ .Undefined) {bs rest : Bytes}
    {held : BoundType dir kind} (hop : convert ⟨bs.headD 0xFF⟩ = kind)
    (h : readHeld dir kind hk bs = some (held, rest)) :
    verdictVariant dir bs = .message ⟨kind, held⟩ rest := by
  subst hop
  have h0 : bs.headD 0xFF ≠ 0 := fun h0 => code_ne_zero hk h0
  rw [verdictVariant, if_neg h0, dif_neg hk, h]

/-- Bytes that go on from others begin with the same byte. -/
theorem headD_of_isPrefix {as bs : Bytes} {c : UInt8} (h : as <+: bs) (hne : as ≠ []) :
    bs.headD c = as.headD c := by
  obtain ⟨cs, rfl⟩ := h
  obtain ⟨a, as, rfl⟩ := List.exists_cons_of_ne_nil hne
  rfl

/-- Something to see that is not rejected announces a class. -/
theorem announced_of_cut {bs : Bytes} (h : verdictVariant dir bs = .cut) :
    ∃ hk : convert ⟨bs.headD 0xFF⟩ ≠ .Undefined, readHeld dir _ hk bs = none := by
  rw [verdictVariant] at h
  by_cases h0 : bs.headD 0xFF = 0
  · rw [if_pos h0] at h
    cases h
  · rw [if_neg h0] at h
    by_cases hk : convert ⟨bs.headD 0xFF⟩ = .Undefined
    · rw [dif_pos hk] at h
      cases h
    · rw [dif_neg hk] at h
      refine ⟨hk, ?_⟩
      cases hread : readHeld dir _ hk bs with
      | none => rfl
      | some p =>
          rw [hread] at h
          cases h

/-- Of cut bytes the decoder returns what it would of a message that goes on from
    them. -/
theorem variant_cut (order : ArgOrder) {msg : MessageStream}
    (h : verdictVariant dir (seen msg) = .cut) (old : Variant dir) :
    ∃ msg' v bs, decodeVariant order dir (msg, old) = .ok () (msg', receivedVariant order v)
      ∧ msg'.good = false ∧ msg'.unread = [] ∧ seen msg <+: bs
      ∧ verdictVariant dir bs = .message v [] := by
  obtain ⟨hk, hread⟩ := announced_of_cut h
  obtain ⟨hann, hunread⟩ := announces_of_seen hk
  obtain ⟨held, bs, hbs, hcut, hreturns, hbad, hnil⟩ :=
    (follows_held hk).cuts order (newHeld dir _) hann.1 hunread.symm hread
  have hne : seen msg ≠ [] := fun hnone => by
    rw [hnone] at hk
    exact hk rfl
  refine ⟨_, ⟨_, held⟩, bs, ?_, hbad, hnil, hcut,
    verdictVariant_of_readHeld hk (by rw [headD_of_isPrefix hcut hne]) hbs⟩
  rw [decodeVariant_of_announces order hann old, hreturns, receivedVariant, receivedHeld,
    dif_pos hk]

/-- **THE DISPATCH BY KIND**: it carries out its verdict. -/
theorem variant_carriesOut (order : ArgOrder) (dir : MessageDirection) (msg : MessageStream) :
    CarriesOut (decodeVariant order dir) (receivedVariant order)
      (verdictVariant dir (seen msg)) msg := by
  intro old
  have hfst := peek_fst msg
  rw [glimpse_eq] at hfst
  have hunread := unread_peek msg
  have hseen := seen_peek msg
  by_cases hk : convert ⟨(seen msg).headD 0xFF⟩ = .Undefined
  · rcases hp : peek msg with ⟨shown, msg'⟩
    rw [hp] at hfst hunread hseen
    by_cases h0 : (seen msg).headD 0xFF = 0
    · rw [if_pos h0] at hfst
      obtain rfl : shown = none := hfst
      simp only [verdictVariant, if_pos h0]
      exact ⟨msg', old, by simp only [decodeVariant, hp], hunread, hseen⟩
    · rw [if_neg h0] at hfst
      obtain rfl : shown = some ((seen msg).headD 0xFF) := hfst
      simp only [verdictVariant, if_neg h0, dif_pos hk]
      exact ⟨msg', old, by simp only [decodeVariant, hp, hk], hunread, hseen⟩
  · obtain ⟨hann, hunread'⟩ := announces_of_seen hk
    have h0 : (seen msg).headD 0xFF ≠ 0 := fun h0 => code_ne_zero hk h0
    have hrun := decodeVariant_of_announces order hann old
    have hfollows := @follows_held dir _ hk
    simp only [verdictVariant, if_neg h0, dif_neg hk]
    cases hread : readHeld dir _ hk (seen msg) with
    | some p =>
        obtain ⟨held, rest⟩ := p
        obtain ⟨used, hu, hget⟩ :=
          hfollows.takes order (newHeld dir _) hann.1 hunread'.symm hread
        refine ⟨used, hunread'.symm.trans hu, ?_⟩
        rw [hrun, hget, receivedVariant, receivedHeld, dif_pos hk]
    | none =>
        have hcut : verdictVariant dir (seen msg) = .cut := by
          rw [verdictVariant, if_neg h0, dif_neg hk, hread]
        obtain ⟨msg', v, -, hok, hbad, hnil, -⟩ := variant_cut order hcut old
        exact ⟨msg', _, hok, hbad, hnil⟩

/-- The delegate meets the stream as the first look left it. -/
theorem decodeInteraction_eq (order : ArgOrder) (msg : MessageStream) (old : Interaction) :
    decodeInteraction order (msg, old)
      = if (seen msg).headD 0xFF = 0 then
          .error ⟨"Cannot deduce type because message is not in a good state!"⟩
            ((peek msg).2, old)
        else match directionOf ⟨(seen msg).headD 0xFF⟩ with
          | .Request  =>
              emplace .request (.new .Request) (decodeVariant order .Request) (peek msg).2
          | .Response =>
              emplace .response (.new .Response) (decodeVariant order .Response) (peek msg).2 := by
  have hfst := peek_fst msg
  rw [glimpse_eq] at hfst
  rcases hp : peek msg with ⟨shown, msg'⟩
  rw [hp] at hfst
  by_cases h0 : (seen msg).headD 0xFF = 0
  · rw [if_pos h0] at hfst ⊢
    obtain rfl : shown = none := hfst
    simp only [decodeInteraction, hp]
  · rw [if_neg h0] at hfst ⊢
    obtain rfl : shown = some ((seen msg).headD 0xFF) := hfst
    simp only [decodeInteraction, hp, directionOf]
    by_cases hr : isRequest ⟨(seen msg).headD 0xFF⟩ = true
    · simp only [hr, if_true, decodeRequest]
    · simp only [hr, decodeResponse]
      rfl

/-- A dispatcher that puts a new alternative in place first carries out what its
    delegate does. -/
theorem emplace_carriesOut {decode : Decoder α} {received : α → α} {v : Verdict α}
    {msg : MessageStream} (h : CarriesOut decode received v msg) (hold : α → β) (new : α)
    {received' : β → β} (hreceived : ∀ a, received' (hold a) = hold (received a)) :
    CarriesOut (fun s => emplace hold new decode s.1) received' (v.map hold) msg := by
  intro old
  have hnew := h new
  cases v with
  | rejected ex =>
      obtain ⟨msg', a, hrun, hu, hs⟩ := hnew
      exact ⟨msg', hold a, by simp only [emplace, hrun], hu, hs⟩
  | message a rest =>
      obtain ⟨used, hu, hrun⟩ := hnew
      exact ⟨used, hu, by simp only [emplace, hrun, hreceived]⟩
  | cut =>
      obtain ⟨msg', a, hrun, hbad, hu⟩ := hnew
      exact ⟨msg', hold a, by simp only [emplace, hrun], hbad, hu⟩

/-- A peek either changes nothing or is in front of a rejection. -/
theorem peek_cases (msg : MessageStream) :
    (peek msg).2 = msg ∨ ∀ dir, ∃ ex, verdictVariant dir (seen msg) = .rejected ex := by
  by_cases hk : convert ⟨(seen msg).headD 0xFF⟩ = .Undefined
  · refine Or.inr fun dir => ?_
    by_cases h0 : (seen msg).headD 0xFF = 0
    · exact ⟨_, by rw [verdictVariant, if_pos h0]⟩
    · exact ⟨_, by rw [verdictVariant, if_neg h0, dif_pos hk]⟩
  · exact Or.inl (congrArg Prod.snd (announces_of_seen hk).1.peek)

/-- A verdict carried out behind a peek is carried out from in front of it. -/
theorem CarriesOut.of_peek {decode : Decoder (Variant dir)} {received : Variant dir → Variant dir}
    {msg : MessageStream}
    (h : CarriesOut decode received (verdictVariant dir (seen msg)) (peek msg).2) :
    CarriesOut (fun s => decode ((peek s.1).2, s.2)) received
      (verdictVariant dir (seen msg)) msg := by
  intro old
  have hold := h old
  rcases peek_cases msg with hsame | hrejected
  · rw [hsame] at hold
    simp only [hsame]
    exact hold
  · obtain ⟨ex, hex⟩ := hrejected dir
    rw [hex] at hold ⊢
    obtain ⟨msg', a, hrun, hu, hs⟩ := hold
    exact ⟨msg', a, hrun, hu.trans (unread_peek msg), hs.trans (seen_peek msg)⟩

theorem received_request (order : ArgOrder) (r : Request) :
    received order (.request r) = .request (receivedVariant order r) := rfl

theorem received_response (order : ArgOrder) (r : Response) :
    received order (.response r) = .response (receivedVariant order r) := rfl

/-- **THE DISPATCH BY DIRECTION**: it carries out its verdict. -/
theorem interaction_carriesOut (order : ArgOrder) (msg : MessageStream) :
    CarriesOut (decodeInteraction order) (received order) (verdict (seen msg)) msg := by
  intro old
  have hbehind : ∀ dir, CarriesOut (fun s => decodeVariant order dir ((peek s.1).2, s.2))
      (receivedVariant order) (verdictVariant dir (seen msg)) msg := by
    intro dir
    apply CarriesOut.of_peek
    have h := variant_carriesOut order dir (peek msg).2
    rwa [seen_peek] at h
  rw [decodeInteraction_eq, verdict]
  by_cases h0 : (seen msg).headD 0xFF = 0
  · rw [if_pos h0]
    simp only [verdictVariant, h0]
    exact ⟨(peek msg).2, old, rfl, unread_peek msg, seen_peek msg⟩
  · rw [if_neg h0]
    cases directionOf ⟨(seen msg).headD 0xFF⟩ with
    | Request =>
        exact emplace_carriesOut (hbehind .Request) .request (.new .Request)
          (received_request order) old
    | Response =>
        exact emplace_carriesOut (hbehind .Response) .response (.new .Response)
          (received_response order) old

/-- **WHAT THE DECODERS DO** with a stream of any bytes in any state is what the
    verdict on the bytes they get to see says. -/
theorem decoders_carry_out (order : ArgOrder) (msg : MessageStream) :
    CarriesOut (decodeRequest order) (receivedVariant order)
        (verdictVariant .Request (seen msg)) msg
      ∧ CarriesOut (decodeResponse order) (receivedVariant order)
        (verdictVariant .Response (seen msg)) msg
      ∧ CarriesOut (decodeInteraction order) (received order) (verdict (seen msg)) msg :=
  ⟨variant_carriesOut order .Request msg, variant_carriesOut order .Response msg,
    interaction_carriesOut order msg⟩

end KzrVerdict
