import Kzr.AcceptanceProofs
import Kzr.RoundTripProofs

/-! # Messages of other implementations

    A peer that keeps to 9P2000 sends the bodies of the protocol.  For all kinds but
    two these are what the encoders here write, so they are taken off a stream one by
    one and understood.

    A version message has two bytes more than the decoder reads in front of its
    string: it takes the upper half of `msize` for the length of the string, and the
    length for its first two characters.  A stat has a length more, and its decoder
    takes every member two bytes early.  Both leave the decoder in step with the peer
    only by accident, and by which is shown here.  As every session begins with a
    version message, what becomes of one is shown as well: for the names and sizes in
    use, nothing behind it is ever decoded. -/

namespace KzrStandard

open WireFormat LittleEndian KzrOperation KzrMessageStream KzrPrimitive KzrCodec KzrMessage
open KzrMessageCodec KzrInteraction KzrInteractionCodec KzrNineP KzrVerdict KzrAcceptance
open KzrRoundTrip (heldHeader_received)
open KzrEncodable (Encodable visit)

variable {α γ : Type} {dir : MessageDirection} {kind : ConceptualOperation}

/-! ## What a peer sends -/

/-- A version message as the protocol has it, or any other message. -/
inductive PeerMessage where
  | version (dir : MessageDirection) (tag : UInt16) (msize : UInt32) (text : Bytes)
  | other (dir : MessageDirection) (v : Variant dir)

/-- The body of the protocol. -/
def PeerMessage.bytes : PeerMessage → Bytes
  | .version dir tag msize text =>
      (le 1 (opcode dir .Version) :: le 2 tag.toNat :: [le 4 msize.toNat, str text]).flatten
  | .other _ v                  => body v

/-- Its operation and its tag. -/
def PeerMessage.header : PeerMessage → MessageHeader
  | .version dir tag _ _ => { op := RawOperation .Version dir, tag }
  | .other dir v         => heldHeader dir v.kind v.held

/-- What a peer can send: strings that fit their lengths. -/
def PeerMessage.Sendable : PeerMessage → Prop
  | .version _ _ _ text => text.length ≤ 65535
  | .other _ v          => v.kind ≠ .Version ∧ v.Constructed ∧ Encodable v

/-- Bytes that are `n` strings behind their lengths. -/
def Strings (n : Nat) (bs : Bytes) : Prop :=
  ∃ l : List Bytes, l.length = n ∧ (∀ s ∈ l, s.length ≤ 65535) ∧ bs = l.flatMap str

/-- What is left of a stat two bytes before its strings. -/
def beforeStrings (m : Stat) : Bytes :=
  (le 8 m.length.toNat).drop 6 ++ (str m.name ++ str m.uid ++ str m.gid ++ str m.muid)

/-- The accident: the upper half of `msize` is the length of what comes after it, or
    the last two bytes of `length` and the strings of a stat are four strings. -/
def PeerMessage.Coincides : PeerMessage → Prop
  | .version _ _ msize text     => msize.toNat / 65536 = text.length + 2
  | .other .Request ⟨.WStat, m⟩ => Strings 4 (beforeStrings (WStatRequest.stat m))
  | .other _ _                  => True

/-- What has to come of a message: its operation and its tag, and all of it where
    the encoders write the layout of the protocol. -/
def Understood (order : ArgOrder) (m : PeerMessage) (i : Interaction) : Prop :=
  i.getOperation = m.header.op ∧ i.getTag = m.header.tag
    ∧ ∀ dir (v : Variant dir), m = .other dir v → standard dir v.kind = true →
      i = received order (ofHeld dir v.kind v.held)

/-! ## Languages -/

/-- Renaming the fields keeps the language. -/
theorem spelled_via {c : Codec γ} {fields : α → γ} {make : γ → α}
    {make_fields : ∀ a, make (fields a) = a} {fields_make : ∀ t, fields (make t) = t} (bs : Bytes) :
    (c.via fields make make_fields fields_make).format.Spelled bs ↔ c.format.Spelled bs :=
  @Format.spelled_via _ _ _ c.format fields make make_fields (fun t _ _ => fields_make t) bs

theorem opens_via {c : Codec γ} {k : Nat} {P : Bytes → Prop} {fields : α → γ} {make : γ → α}
    {make_fields : ∀ a, make (fields a) = a} {fields_make : ∀ t, fields (make t) = t}
    (h : c.format.Opens k P) : (c.via fields make make_fields fields_make).format.Opens k P :=
  fun bs => (spelled_via bs).trans (h bs)

theorem wide_message (kind : ConceptualOperation) (dir : MessageDirection) :
    (message kind dir).format.Wide 3 :=
  @opens_via _ _ (uint8.pair uint16) _ _ _ _ _ _ (wide_u8.opens wide_u16)

theorem wide_hasFid : hasFid.format.Wide 4 := @opens_via _ _ uint32 _ _ _ _ _ _ wide_u32

theorem wide_hasQid : hasQid.format.Wide 13 :=
  opens_via (@opens_via _ _ (uint8.pair (uint32.pair uint64)) _ _ _ _ _ _
    (wide_u8.opens (wide_u32.opens wide_u64)))

theorem spelled_string (bs : Bytes) :
    string.format.Spelled bs ↔ ∃ s : Bytes, s.length ≤ 65535 ∧ bs = str s := by
  constructor
  · rintro ⟨s, h⟩
    obtain ⟨u, v, hu, -, -⟩ := cat_eq_some.mp h
    exact ⟨s, Nat.le_of_lt_succ (lt_of_uint_encode hu), spells_string s bs h⟩
  · rintro ⟨s, hs, rfl⟩
    refine ⟨s, ?_⟩
    show cat ((uint 2).encode s.length) (encodeEach u8.encode s) = some (str s)
    rw [uint_encode (by omega), encodeEach_u8, cat_some]
    rfl

theorem strings_one (bs : Bytes) : string.format.Spelled bs ↔ Strings 1 bs := by
  rw [spelled_string]
  constructor
  · rintro ⟨s, hs, rfl⟩
    exact ⟨[s], rfl, by simpa using hs, by simp⟩
  · rintro ⟨l, hl, hall, rfl⟩
    obtain ⟨s, rfl⟩ := List.length_eq_one_iff.mp hl
    exact ⟨s, hall s List.mem_cons_self, by simp⟩

/-- One string more. -/
theorem strings_succ {f : Format UInt8 α} {n : Nat} (hf : ∀ bs, f.Spelled bs ↔ Strings n bs)
    (bs : Bytes) : (string.format.pair f).Spelled bs ↔ Strings (n + 1) bs := by
  rw [Format.spelled_pair]
  constructor
  · rintro ⟨u, v, hu, hv, rfl⟩
    obtain ⟨s, hs, rfl⟩ := (spelled_string u).mp hu
    obtain ⟨l, rfl, hall, rfl⟩ := (hf v).mp hv
    exact ⟨s :: l, rfl, List.forall_mem_cons.mpr ⟨hs, hall⟩, List.flatMap_cons.symm⟩
  · rintro ⟨l, hl, hall, rfl⟩
    cases l with
    | nil => cases hl
    | cons s l =>
        obtain ⟨hs, hall⟩ := List.forall_mem_cons.mp hall
        exact ⟨str s, l.flatMap str, (spelled_string _).mpr ⟨s, hs, rfl⟩,
          (hf _).mpr ⟨l, Nat.succ.inj hl, hall, rfl⟩, List.flatMap_cons⟩

/-- A version message is five bytes and a string. -/
theorem opens_versionMessage : (versionMessage dir).format.Opens 5 (Strings 1) :=
  @opens_via _ _ ((message .Version dir).toCodec.pair (uint16.pair string)) _ _ _ _ _ _
    ((wide_message _ _).opens (wide_u16.opens (Format.opens_zero strings_one)))

/-- The members of a stat are 39 bytes and four strings. -/
theorem opens_statMembers : statMembers.format.Opens 39 (Strings 4) := by
  have hstrings : ∀ bs, (hasName.format.pair (string.format.pair
      (string.format.pair string.format))).Spelled bs ↔ Strings 4 bs := by
    intro bs
    rw [← strings_succ (strings_succ (strings_succ strings_one)), Format.spelled_pair,
      Format.spelled_pair]
    exact exists₂_congr fun u v => and_congr_left fun _ => spelled_via u
  exact opens_via (wide_u16.opens (wide_u32.opens (wide_hasQid.opens (wide_u32.opens
    (wide_u32.opens (wide_u32.opens (wide_u64.opens (Format.opens_zero hstrings))))))))

theorem opens_sizedWStat : sizedWStat.Opens 48 (Strings 4) :=
  (wide_message _ _).opens (wide_hasFid.opens (wide_u16.opens opens_statMembers))

/-! ## What is taken off a stream -/

/-- The interaction is sent as these bytes, the size in front of a stat left aside. -/
def Taken (sent : Interaction) (bs : Bytes) : Prop := SentAs sent bs ∨ SentResized sent bs

/-- The first byte tells the kinds apart. -/
theorem kind_of_code {dir' : MessageDirection} {kind' : ConceptualOperation}
    (h : (RawOperation kind' dir').code = (RawOperation kind dir).code) :
    dir' = dir ∧ kind' = kind := by
  have hop : translateConcept kind' dir' = translateConcept kind dir := congrArg Operation.mk h
  constructor
  · rw [← directionOf_translateConcept kind' dir', hop, directionOf_translateConcept]
  · rw [← convert_translateConcept kind' dir', hop, convert_translateConcept]

/-- Bytes that begin with the operation of a class are sent by an object of it. -/
theorem spelled_of_sentAs (hk : kind ≠ .Undefined) {sent : Interaction} {bs : Bytes}
    (hhead : bs.head? = some (RawOperation kind dir).code) (h : SentAs sent bs) :
    (codec dir kind hk).format.Spelled bs := by
  obtain ⟨dir', kind', hk', held, -, hop, hbs⟩ := interactionFormat_encode (sentAs_iff.mp h)
  have hcode := (codec dir' kind' hk').head hbs
  rw [← heldHeader_eq, hop, hhead] at hcode
  obtain ⟨rfl, rfl⟩ := kind_of_code (Option.some.inj hcode).symm
  exact ⟨held, hbs⟩

theorem sentAs_of_encode (hk : kind ≠ .Undefined) {held : BoundType dir kind} {bs : Bytes}
    (hhead : bs.head? = some (RawOperation kind dir).code)
    (hbs : (codec dir kind hk).format.encode held = some bs) :
    SentAs (ofHeld dir kind held) bs := by
  have hcode := (codec dir kind hk).head hbs
  rw [← heldHeader_eq, hhead] at hcode
  have hop : (heldHeader dir kind held).op = RawOperation kind dir :=
    congrArg Operation.mk (Option.some.inj hcode).symm
  exact sentAs_iff.mpr ((interactionFormat_ofHeld hk hop).trans hbs)

theorem head_sentResized {sent : Interaction} {bs : Bytes} (h : SentResized sent bs) :
    bs.head? = some (RawOperation .WStat .Request).code := by
  obtain ⟨m, size, members, rfl, hc, -, rfl⟩ := h
  have hop : m.op = RawOperation .WStat .Request := hc
  show some (UInt8.ofNat m.op.code.toNat) = _
  rw [UInt8.ofNat_toNat, hop]

/-- A stat request with the right size is one with some size. -/
theorem spelled_sized {bs : Bytes} (h : wStatRequest.format.Spelled bs) :
    sizedWStat.Spelled bs := by
  obtain ⟨m, henc⟩ := h
  have henc' : cat ((message .WStat .Request).format.encode m.toMessage)
      (cat (hasFid.format.encode m.toHasFid) (statFormat.encode m.stat)) = some bs := henc
  obtain ⟨u, v, hu, hv, rfl⟩ := cat_eq_some.mp henc'
  obtain ⟨w, x, hw, hx, rfl⟩ := cat_eq_some.mp hv
  rw [statFormat_encode] at hx
  obtain ⟨members, hmembers, hstat⟩ := Option.bind_eq_some_iff.mp hx
  obtain ⟨y, z, hy, hz, rfl⟩ := cat_eq_some.mp hstat
  rw [encodeEach_u8] at hz
  cases hz
  refine ⟨(m.toMessage, m.toHasFid, UInt16.ofNat members.length, m.stat), ?_⟩
  have hsize : u16.encode (UInt16.ofNat members.length) = some y :=
    (u16_encode_ofNat (lt_of_uint_encode hy)).trans hy
  show cat _ (cat _ (cat (u16.encode (UInt16.ofNat members.length)) _)) = _
  rw [hu, hw, hsize, hmembers]
  rfl

/-! ## Headers -/

theorem le_two_inj {m n : Nat} (hm : m < 65536) (hn : n < 65536) (h : le 2 m = le 2 n) : m = n := by
  rw [← @value_le 2 m hm, h, value_le hn]

theorem headerBytes_inj {h h' : MessageHeader} {as bs : Bytes}
    (heq : headerBytes h ++ as = headerBytes h' ++ bs) : h = h' := by
  obtain ⟨hhead, -⟩ := List.append_inj heq rfl
  obtain ⟨hop, htag⟩ := List.append_inj hhead rfl
  rw [le_one, le_one] at hop
  have hcode : h.op.code = h'.op.code := (List.cons.inj hop).1
  have hsame : h.tag = h'.tag :=
    UInt16.toNat_inj.mp (le_two_inj h.tag.toNat_lt h'.tag.toNat_lt htag)
  cases h
  cases h'
  congr 1
  exact congrArg Operation.mk hcode

theorem head_headerBytes (h : MessageHeader) (bs : Bytes) :
    (headerBytes h ++ bs).head? = some h.op.code := by
  show some (UInt8.ofNat h.op.code.toNat) = _
  rw [UInt8.ofNat_toNat]

variable {tag : UInt16} {msize : UInt32} {text : Bytes}

/-- A version message as the decoder goes through it: the header, a size of two bytes,
    and behind it what it takes for a length. -/
theorem version_bytes : (PeerMessage.version dir tag msize text).bytes
    = headerBytes { op := RawOperation .Version dir, tag } ++ le 2 msize.toNat
      ++ (le 2 (msize.toNat / 65536) ++ str text) := by
  rw [headerBytes, code_eq_opcode (by decide)]
  simp [PeerMessage.bytes, le_add 2 2]

/-- The body of a message is its header and more. -/
theorem bytes_header {m : PeerMessage} (hm : m.Sendable) :
    ∃ bs, m.bytes = headerBytes m.header ++ bs := by
  cases m with
  | version dir tag msize text => exact ⟨_, version_bytes.trans (List.append_assoc _ _ _)⟩
  | other dir v => exact ⟨_, body_eq hm.2.1 hm.2.2.1⟩

/-- What is sent is a header and more. -/
theorem taken_header {sent : Interaction} {bs : Bytes} (h : Taken sent bs) :
    ∃ dir kind, ∃ held : BoundType dir kind, sent = ofHeld dir kind held
      ∧ ∃ rest, bs = headerBytes (heldHeader dir kind held) ++ rest := by
  rcases h with ⟨-, henc⟩ | ⟨m, size, members, rfl, -, -, rfl⟩
  · obtain ⟨dir, kind, held, rfl⟩ := exists_ofHeld sent
    obtain ⟨hm, hbs⟩ := (KzrEncodable.encode_ok_iff _ rfl _).mp (henc fun _ => 0)
    rw [KzrQueue.writeAll_of_writable (writable_new _)] at hbs
    have hdraft : visit KzrEncodable.draft (ofHeld dir kind held)
        = KzrEncodable.draft ⟨kind, held⟩ := by
      cases dir <;> rfl
    have hk : kind ≠ .Undefined := by
      cases dir <;> exact hm.1
    refine ⟨dir, kind, held, rfl, (Drafting.Draft.all
      ((KzrField.fields dir kind held).map KzrEncodable.fieldDraft)).written, ?_⟩
    rw [append_injective hbs, hdraft, KzrEncodable.draft, Drafting.written_check hk,
      KzrEncodable.body, Drafting.written_seq (Drafting.complete_whole _)]
    rfl
  · exact ⟨.Request, .WStat, m, rfl, _, by rw [List.append_assoc, List.append_assoc]; rfl⟩

/-- A decode keeps the header. -/
theorem header_received (order : ArgOrder) (held : BoundType dir kind) :
    (received order (ofHeld dir kind held)).getOperation = (heldHeader dir kind held).op
      ∧ (received order (ofHeld dir kind held)).getTag = (heldHeader dir kind held).tag := by
  have hheader := heldHeader_received order held
  rw [received_ofHeld]
  constructor
  · rw [getOperation_ofHeld, hheader]
  · cases dir <;> exact congrArg MessageHeader.tag hheader

/-- What is taken comes under the header it begins with. -/
theorem taken_received (order : ArgOrder) {sent : Interaction} {h : MessageHeader}
    {bs rest : Bytes} (htaken : Taken sent bs) (hbs : bs = headerBytes h ++ rest) :
    (received order sent).getOperation = h.op ∧ (received order sent).getTag = h.tag := by
  obtain ⟨dir, kind, held, rfl, rest', hrest⟩ := taken_header htaken
  have hheader : heldHeader dir kind held = h := headerBytes_inj (hrest.symm.trans hbs)
  have hreceived := header_received order held
  rwa [hheader] at hreceived

theorem taken_understood (order : ArgOrder) {m : PeerMessage} (hm : m.Sendable)
    (hs : ∀ dir (v : Variant dir), m = .other dir v → standard dir v.kind = false)
    {sent : Interaction} (h : Taken sent m.bytes) : Understood order m (received order sent) := by
  obtain ⟨bs, hbs⟩ := bytes_header hm
  obtain ⟨hop, htag⟩ := taken_received order h hbs
  refine ⟨hop, htag, ?_⟩
  intro dir v hv hstandard
  rw [hs dir v hv] at hstandard
  cases hstandard

/-! ## Version messages -/

theorem strings_behind {n : Nat} (hn : n < 65536) (s : Bytes) :
    Strings 1 (le 2 n ++ s) ↔ n = s.length := by
  constructor
  · rintro ⟨l, hl, hall, heq⟩
    obtain ⟨t, rfl⟩ := List.length_eq_one_iff.mp hl
    have ht : t.length ≤ 65535 := hall t List.mem_cons_self
    have heq' : le 2 n ++ s = le 2 t.length ++ t := by simpa [str] using heq
    obtain ⟨hlen, rfl⟩ := List.append_inj heq' rfl
    exact le_two_inj hn (by omega) hlen
  · rintro rfl
    exact ⟨[s], rfl, by simpa using Nat.le_of_lt_succ hn, by simp [str]⟩

/-- The decoder meets the string two bytes early. -/
theorem spelled_version_iff :
    (versionMessage dir).format.Spelled (PeerMessage.version dir tag msize text).bytes
      ↔ (PeerMessage.version dir tag msize text).Coincides := by
  have hhi : msize.toNat / 65536 < 65536 := by
    have := msize.toNat_lt
    omega
  have hstr : (str text).length = text.length + 2 := by
    rw [str, List.length_append, length_le, Nat.add_comm]
  have hfive : 5 ≤ (PeerMessage.version dir tag msize text).bytes.length := by
    simp [version_bytes, headerBytes]
    omega
  rw [opens_versionMessage, and_iff_right hfive, version_bytes,
    List.drop_left' (by simp [headerBytes]), strings_behind hhi, hstr]
  rfl

theorem version_taken_iff (hm : (PeerMessage.version dir tag msize text).Sendable) :
    (∃ sent, Taken sent (PeerMessage.version dir tag msize text).bytes)
      ↔ (PeerMessage.version dir tag msize text).Coincides := by
  have hk : ConceptualOperation.Version ≠ .Undefined := by decide
  obtain ⟨bs, hbs⟩ := bytes_header hm
  have hhead : (PeerMessage.version dir tag msize text).bytes.head?
      = some (RawOperation .Version dir).code := by rw [hbs, head_headerBytes]; rfl
  have hcodec : (codec dir .Version hk).format.Spelled
      (PeerMessage.version dir tag msize text).bytes
      ↔ (PeerMessage.version dir tag msize text).Coincides := by
    cases dir <;> exact spelled_version_iff
  rw [← hcodec]
  constructor
  · rintro ⟨sent, h | h⟩
    · exact spelled_of_sentAs hk hhead h
    · have hcode := hhead.symm.trans (head_sentResized h)
      cases (kind_of_code (Option.some.inj hcode)).2
  · rintro ⟨held, henc⟩
    exact ⟨_, Or.inl (sentAs_of_encode hk hhead henc)⟩

/-! ## The end of a session -/

/-- The header, the lower half of `msize`, and what is taken for the string. -/
def misread (dir : MessageDirection) (tag : UInt16) (msize : UInt32) (text : Bytes) : Bytes :=
  headerBytes { op := RawOperation .Version dir, tag } ++ (le 2 msize.toNat
    ++ str ((str text).take (msize.toNat / 65536)))

theorem version_misread (hlen : msize.toNat / 65536 ≤ (str text).length) :
    (PeerMessage.version dir tag msize text).bytes
      = misread dir tag msize text ++ (str text).drop (msize.toNat / 65536) := by
  have htake : ((str text).take (msize.toNat / 65536)).length = msize.toNat / 65536 :=
    List.length_take_of_le hlen
  have hstr := List.take_append_drop (msize.toNat / 65536) (str text)
  have hinner : str ((str text).take (msize.toNat / 65536))
      = le 2 (msize.toNat / 65536) ++ (str text).take (msize.toNat / 65536) := by
    conv_lhs => rw [str, htake]
  rw [version_bytes, misread, hinner]
  simp only [List.append_assoc]
  rw [hstr]

/-- The decoder is content with it. -/
theorem sent_misread (hlen : msize.toNat / 65536 ≤ (str text).length) :
    ∃ sent, Taken sent (misread dir tag msize text) := by
  have hk : ConceptualOperation.Version ≠ .Undefined := by decide
  have hlt := msize.toNat_lt
  have htake : ((str text).take (msize.toNat / 65536)).length = msize.toNat / 65536 :=
    List.length_take_of_le hlen
  have hspelled : (versionMessage dir).format.Spelled (misread dir tag msize text) := by
    have hdrop : (misread dir tag msize text).drop 5
        = str ((str text).take (msize.toNat / 65536)) := by
      rw [misread, ← List.append_assoc]
      exact List.drop_left' rfl
    have hfive : 5 ≤ (misread dir tag msize text).length := by
      simp [misread, headerBytes]
      omega
    rw [opens_versionMessage, hdrop, and_iff_right hfive]
    refine ⟨[(str text).take (msize.toNat / 65536)], rfl, ?_, by simp⟩
    rw [List.forall_mem_singleton, htake]
    omega
  have hheld : ∃ held, (codec dir .Version hk).format.encode held
      = some (misread dir tag msize text) := by
    cases dir <;> exact hspelled
  obtain ⟨held, henc⟩ := hheld
  exact ⟨_, Or.inl (sentAs_of_encode hk (head_headerBytes _ _) henc)⟩

/-- What the dispatch says of a byte that is no operation. -/
def noOperation (b : UInt8) : Exception :=
  if b = 0 then ⟨"Cannot deduce type because message is not in a good state!"⟩
  else ⟨"Illegal type found!"⟩

theorem verdict_noOperation {b : UInt8} (hb : convert ⟨b⟩ = .Undefined) (rest : Bytes) :
    verdict (b :: rest) = .rejected (noOperation b) := by
  have hvariant (dir : MessageDirection) :
      verdictVariant dir (b :: rest) = .rejected (noOperation b) := by
    rw [verdictVariant, noOperation]
    by_cases h0 : b = 0
    · rw [if_pos (show (b :: rest).headD 0xFF = 0 from h0), if_pos h0]
    · rw [if_neg (show ¬ (b :: rest).headD 0xFF = 0 from h0), if_neg h0,
        dif_pos (show convert ⟨(b :: rest).headD 0xFF⟩ = .Undefined from hb)]
  rw [verdict_eq, hvariant]
  rfl

/-- The first decode takes the version message, and the next one looks at what it left of
    the version string and its length. -/
theorem session_version (order : ArgOrder) (hle : msize.toNat / 65536 ≤ (str text).length)
    (n : Nat) {msg : MessageStream} {rest : Bytes} (hg : msg.good = true)
    (hu : msg.unread = (PeerMessage.version dir tag msize text).bytes ++ rest)
    (old : Interaction) :
    ∃ i msg', i.getOperation = RawOperation .Version dir ∧ i.getTag = tag
      ∧ seen msg' = (str text).drop (msize.toNat / 65536) ++ rest
      ∧ session order (n + 1) (msg, old) = .ok i :: session order n (msg', i) := by
  obtain ⟨sent, htaken⟩ := @sent_misread dir tag msize text hle
  rw [version_misread hle, List.append_assoc] at hu
  obtain ⟨hop, htag⟩ := taken_received order htaken rfl
  refine ⟨received order sent, msg.advance (misread dir tag msize text).length, hop, htag,
    ?_, ?_⟩
  · rw [seen, good_advance, if_pos hg, unread_advance, hu, List.drop_left]
  · rw [session, accepted_of_sent order htaken hg hu old]

/-- Of a byte that is no operation nothing is decoded. -/
theorem verdict_drop {l rest : Bytes} {k : Nat} {b : UInt8} (hb : l[k]? = some b)
    (hno : convert ⟨b⟩ = .Undefined) :
    verdict (l.drop k ++ rest) = .rejected (noOperation b) := by
  obtain ⟨hlt, hget⟩ := List.getElem?_eq_some_iff.mp hb
  rw [List.drop_eq_getElem_cons hlt, hget]
  exact verdict_noOperation hno _

/-- **OVER WITH THE FIRST MESSAGE**: while the upper half of `msize` stays below the
    bytes of the version string and its length, the next message is looked for among
    these.  A byte that is no operation there, and after the version message nothing is
    decoded any more, whatever the peer goes on to send. -/
theorem session_over (order : ArgOrder) {b : UInt8}
    (hb : (str text)[msize.toNat / 65536]? = some b) (hno : convert ⟨b⟩ = .Undefined) (n : Nat)
    {msg : MessageStream} {rest : Bytes} (hg : msg.good = true)
    (hu : msg.unread = (PeerMessage.version dir tag msize text).bytes ++ rest)
    (old : Interaction) :
    ∃ i, i.getOperation = RawOperation .Version dir ∧ i.getTag = tag
      ∧ session order (n + 1) (msg, old) = .ok i :: List.replicate n (.error (noOperation b)) := by
  obtain ⟨hlt, -⟩ := List.getElem?_eq_some_iff.mp hb
  obtain ⟨i, msg', hop, htag, hseen, hsession⟩ := session_version order hlt.le n hg hu old
  refine ⟨i, hop, htag, hsession.trans (congrArg _ (session_rejected order n ?_ i))⟩
  rw [hseen]
  exact verdict_drop hb hno

/-- Announced with 8192 bytes, the 6 in front of `9P2000` is taken for an operation. -/
theorem session_over_9P2000 :
    let old := Interaction.request (.new .Request)
    let text : Bytes := [57, 80, 50, 48, 48, 48]
    let msg := (MessageStream.new fun _ => 0).append
      (PeerMessage.version .Request 65535 8192 text).bytes
    ∃ i, i.getOperation = RawOperation .Version .Request ∧ i.getTag = 65535
      ∧ session .leftFirst 3 (msg, old)
        = [.ok i, .error ⟨"Illegal type found!"⟩, .error ⟨"Illegal type found!"⟩] := by
  intro old text msg
  have hunread : msg.unread = (PeerMessage.version .Request 65535 8192 text).bytes ++ [] := by
    rw [unread_append, List.append_nil]
    rfl
  have hsix : (str text)[8192 / 65536]? = some 6 := rfl
  exact session_over .leftFirst hsix rfl 2 rfl hunread old

/-- None of the eight bytes of `9P2000` and its length is an operation, so below 524288
    it makes no difference how large the messages are to be. -/
theorem over_after_9P2000 (order : ArgOrder) (hmsize : msize.toNat < 524288) (n : Nat)
    {msg : MessageStream} {rest : Bytes} (hg : msg.good = true)
    (hu : msg.unread
      = (PeerMessage.version dir tag msize [57, 80, 50, 48, 48, 48]).bytes ++ rest)
    (old : Interaction) :
    ∃ i ex, i.getOperation = RawOperation .Version dir ∧ i.getTag = tag
      ∧ session order (n + 1) (msg, old) = .ok i :: List.replicate n (.error ex) := by
  have hbytes : ∀ b ∈ str [57, 80, 50, 48, 48, 48], convert ⟨b⟩ = .Undefined := by
    intro b hb
    have hstr : str [57, 80, 50, 48, 48, 48] = [6, 0, 57, 80, 50, 48, 48, 48] := rfl
    rw [hstr] at hb
    simp only [List.mem_cons, List.not_mem_nil, or_false] at hb
    rcases hb with rfl | rfl | rfl | rfl | rfl | rfl | rfl | rfl <;> rfl
  have hlt : msize.toNat / 65536 < (str [57, 80, 50, 48, 48, 48]).length :=
    Nat.div_lt_of_lt_mul hmsize
  obtain ⟨i, msg', hop, htag, hseen, hsession⟩ := session_version order hlt.le n hg hu old
  have hverdict := @verdict_drop _ rest _ _ (List.getElem?_eq_getElem hlt)
    (hbytes _ (List.getElem_mem hlt))
  rw [← hseen] at hverdict
  exact ⟨i, _, hop, htag, hsession.trans (congrArg _ (session_rejected order n hverdict i))⟩

/-! ## Stat requests -/

/-- A stat request as a request. -/
def wStat (m : WStatRequest) : Request := ⟨.WStat, m⟩

theorem body_wStat {m : WStatRequest} (hop : m.op = RawOperation .WStat .Request) :
    body (wStat m) = headerBytes m.toMessageHeader ++ (le 4 m.fid.toNat
      ++ (le 2 (statBytes m.stat).length ++ statBytes m.stat)) := by
  have hk : (wStat m).kind ≠ .Undefined := by
    intro h
    cases h
  rw [body_eq (v := wStat m) hop hk]
  show headerBytes m.toMessageHeader
    ++ [le 4 m.fid.toNat, le 2 (statBytes m.stat).length, statBytes m.stat].flatten = _
  simp

/-- What a decoder that skips one length takes for the 39 bytes in front of the
    strings. -/
theorem statBytes_eq (m : Stat) :
    ∃ front, front.length = 39 ∧ statBytes m = front ++ beforeStrings m := by
  have hlast : le 8 m.length.toNat = le 6 m.length.toNat ++ le 2 (m.length.toNat / 256 ^ 6) :=
    le_add 6 2 m.length.toNat
  have hdrop : (le 8 m.length.toNat).drop 6 = le 2 (m.length.toNat / 256 ^ 6) := by
    rw [hlast, List.drop_left' (length_le 6 _)]
  refine ⟨[le 2 (statMembersBytes m).length, le 2 m.type.toNat, le 4 m.dev.toNat, qidBytes m.qid,
    le 4 m.mode.toNat, le 4 m.atime.toNat, le 4 m.mtime.toNat, le 6 m.length.toNat].flatten, ?_, ?_⟩
  · simp [KzrEncodable.length_qidBytes]
  · rw [beforeStrings, hdrop, statBytes]
    generalize (statMembersBytes m).length = n
    simp [statMembersBytes, hlast]

/-- The decoder meets the strings of a stat two bytes early. -/
theorem spelled_wStat_iff {m : WStatRequest} (hop : m.op = RawOperation .WStat .Request) :
    sizedWStat.Spelled (body (wStat m)) ↔ Strings 4 (beforeStrings m.stat) := by
  obtain ⟨front, hlen, hstat⟩ := statBytes_eq m.stat
  have hbody : body (wStat m) = (headerBytes m.toMessageHeader ++ le 4 m.fid.toNat
      ++ le 2 (statBytes m.stat).length ++ front) ++ beforeStrings m.stat := by
    rw [body_wStat hop]
    nth_rewrite 2 [hstat]
    simp
  have hfront : (headerBytes m.toMessageHeader ++ le 4 m.fid.toNat
      ++ le 2 (statBytes m.stat).length ++ front).length = 48 := by
    simp [headerBytes, hlen]
  rw [opens_sizedWStat, hbody, List.drop_left' hfront, and_iff_right]
  rw [List.length_append, hfront]
  exact Nat.le_add_right 48 _

theorem wStat_taken_iff {m : WStatRequest} (hop : m.op = RawOperation .WStat .Request) :
    (∃ sent, Taken sent (body (wStat m))) ↔ Strings 4 (beforeStrings m.stat) := by
  have hk : ConceptualOperation.WStat ≠ .Undefined := by decide
  have hhead : (body (wStat m)).head? = some (RawOperation .WStat .Request).code := by
    rw [body_wStat hop, head_headerBytes, hop]
  rw [← spelled_wStat_iff hop]
  constructor
  · rintro ⟨sent, h | h⟩
    · exact spelled_sized (spelled_of_sentAs hk hhead h)
    · obtain ⟨m', size, -, -, henc⟩ := sentResized_iff.mp h
      exact ⟨_, henc⟩
  · rintro ⟨⟨parent, fid, size, stat⟩, henc⟩
    have hconstructed : parent.op = RawOperation .WStat .Request := by
      obtain ⟨u, v, hu, -, hbs⟩ := cat_eq_some.mp henc
      have hcode := (message .WStat .Request).head hu
      rw [hbs, List.head?_append, hcode] at hhead
      exact congrArg Operation.mk (Option.some.inj hhead)
    exact ⟨.request ⟨.WStat, ({ toMessage := parent, toHasFid := fid, stat } : WStatRequest)⟩,
      Or.inr (sentResized_iff.mpr ⟨_, size, rfl, hconstructed, henc⟩)⟩

/-! ## All messages -/

/-- The encoders would have sent the same. -/
theorem sentAs_body {v : Variant dir} (hs : standard dir v.kind = true) (hc : v.Constructed)
    (hv : Encodable v) : SentAs (ofHeld dir v.kind v.held) (body v) := by
  obtain ⟨kind, held⟩ := v
  have hk : kind ≠ .Undefined := hv.1
  have hencodable : visit Encodable (ofHeld dir kind held) := by cases dir <;> exact hv
  have hnew : (MessageStream.new fun _ => 0).good = true := rfl
  have henc := (KzrEncodable.encode_ok_iff (ofHeld dir kind held) hnew _).mpr ⟨hencodable, rfl⟩
  rw [encodeInteraction_ofHeld] at henc
  obtain ⟨hk, bs, hbs, -⟩ := encodeHeld_ok (writable_new _) henc
  have hbody : body ⟨kind, held⟩ = bs := by
    rw [body_eq hc hk, ← fields_standard hs held]
    exact (spells_codec hk held bs hbs).symm
  rw [hbody]
  exact sentAs_iff.mpr ((interactionFormat_ofHeld hk hc).trans hbs)

theorem coincides_of_standard {v : Variant dir} (hs : standard dir v.kind = true) :
    (PeerMessage.other dir v).Coincides := by
  obtain ⟨kind, held⟩ := v
  cases dir <;> cases kind <;> first | exact True.intro | cases hs

/-- Apart from version messages only stat requests have a layout of their own. -/
theorem eq_wStat {v : Variant dir} (hv : v.kind ≠ .Version) (hs : standard dir v.kind = false) :
    ∃ m, PeerMessage.other dir v = .other .Request (wStat m) := by
  obtain ⟨kind, held⟩ := v
  cases dir with
  | Request =>
      cases kind with
      | WStat => exact ⟨held, rfl⟩
      | Version => exact absurd rfl hv
      | _ => cases hs
  | Response =>
      cases kind with
      | Version => exact absurd rfl hv
      | _ => cases hs

/-- **WHICH MESSAGES ARE TAKEN** for what they are. -/
theorem taken_iff (order : ArgOrder) {m : PeerMessage} (hm : m.Sendable) :
    (∃ sent, Taken sent m.bytes ∧ Understood order m (received order sent)) ↔ m.Coincides := by
  cases m with
  | version dir tag msize text =>
      rw [← version_taken_iff hm]
      refine exists_congr fun sent => and_iff_left_of_imp fun h => ?_
      exact taken_understood order hm (fun _ _ hv => by cases hv) h
  | other dir v =>
      by_cases hs : standard dir v.kind = true
      · obtain ⟨hop, htag⟩ := header_received order v.held
        refine iff_of_true ⟨_, Or.inl (sentAs_body hs hm.2.1 hm.2.2), hop, htag, ?_⟩
          (coincides_of_standard hs)
        rintro dir' v' hv' -
        cases hv'
        rfl
      · have hnone : standard dir v.kind = false := by simpa using hs
        obtain ⟨m, heq⟩ := eq_wStat hm.1 hnone
        cases heq
        refine Iff.trans ?_ (wStat_taken_iff hm.2.1)
        refine exists_congr fun sent => and_iff_left_of_imp fun h => ?_
        refine taken_understood order hm ?_ h
        intro dir' v' hv'
        cases hv'
        rfl

/-! ## Runs -/

/-- The decoder takes the messages off the stream one by one, each to its last byte,
    and understands them. -/
def InStep (order : ArgOrder) : List PeerMessage → MessageStream × Interaction → Prop
  | [], _      => True
  | m :: ms, s => ∃ s', decodeInteraction order s = .ok () s' ∧ s'.1.good = true
      ∧ s.1.unread = m.bytes ++ s'.1.unread ∧ Understood order m s'.2 ∧ InStep order ms s'

/-- **IN STEP WITH A PEER** that keeps to the protocol: the decoder goes through all
    it sends, message by message, exactly when every version message and every stat
    request among them is read to its end by accident. -/
theorem inStep_iff (order : ArgOrder) {ms : List PeerMessage} (hms : ∀ m ∈ ms, m.Sendable)
    {msg : MessageStream} {rest : Bytes} (hg : msg.good = true)
    (hu : msg.unread = ms.flatMap PeerMessage.bytes ++ rest) (old : Interaction) :
    InStep order ms (msg, old) ↔ ∀ m ∈ ms, m.Coincides := by
  induction ms generalizing msg old with
  | nil => exact iff_of_true True.intro (fun _ h => by cases h)
  | cons m ms ih =>
      obtain ⟨hm, hms⟩ := List.forall_mem_cons.mp hms
      rw [List.flatMap_cons, List.append_assoc] at hu
      rw [List.forall_mem_cons, ← taken_iff order hm]
      constructor
      · rintro ⟨⟨msg', i⟩, hd, hg', hread, hunderstood, hrun⟩
        have hrest : msg'.unread = ms.flatMap PeerMessage.bytes ++ rest :=
          List.append_cancel_left (hread.symm.trans hu)
        obtain ⟨-, sent, used, htaken, ⟨after, hused⟩, rfl, rfl⟩ := sent_of_accepted hd hg'
        -- what was taken is what the peer has sent
        have hafter : (msg.advance used.length).unread = after := by
          rw [unread_advance, ← hused, List.drop_left]
        obtain rfl : used = m.bytes := by
          rw [hafter] at hread
          exact List.append_cancel_right (hused.trans hread)
        exact ⟨⟨sent, htaken, hunderstood⟩, (ih hms hg' hrest _).mp hrun⟩
      · rintro ⟨⟨sent, htaken, hunderstood⟩, hall⟩
        have hd := accepted_of_sent order htaken hg hu old
        have hrest : (msg.advance m.bytes.length).unread
            = ms.flatMap PeerMessage.bytes ++ rest := by
          rw [unread_advance, hu, List.drop_left]
        have hgood : (msg.advance m.bytes.length).good = true := (good_advance msg _).trans hg
        exact ⟨_, hd, hgood, by rw [hrest, hu], hunderstood, (ih hms hgood hrest _).mpr hall⟩

/-- A version message announcing 8192 bytes is not read to its end; one announcing
    262144 happens to be, and the flush request behind it is found. -/
theorem inStep_iff_version :
    let old := Interaction.request (.new .Request)
    let flush := PeerMessage.other .Request ⟨.Flush, ({ oldtag := 7 } : FlushRequest)⟩
    let small := PeerMessage.version .Request 65535 8192 [57, 80]
    let large := PeerMessage.version .Request 65535 262144 [57, 80]
    let sent := fun ms : List PeerMessage => (MessageStream.new fun _ => 0).append
      (ms.flatMap PeerMessage.bytes)
    ¬ InStep .leftFirst [small, flush] (sent [small, flush], old)
      ∧ InStep .leftFirst [large, flush] (sent [large, flush], old) := by
  intro old flush small large sent
  have hflush : flush.Sendable := by
    refine ⟨by decide, rfl, by decide, ?_⟩
    exact List.forall_mem_cons.mpr ⟨True.intro, fun _ h => by cases h⟩
  have hsendable : ∀ n, ∀ m ∈ [PeerMessage.version .Request 65535 n [57, 80], flush], m.Sendable :=
    fun n => List.forall_mem_cons.mpr
      ⟨by show 2 ≤ 65535; decide, List.forall_mem_singleton.mpr hflush⟩
  have hunread : ∀ ms, (sent ms).unread = ms.flatMap PeerMessage.bytes ++ [] := fun ms => by
    rw [unread_append, List.append_nil]
    rfl
  constructor
  · intro h
    have hsmall : 8192 / 65536 = 2 + 2 :=
      (inStep_iff .leftFirst (hsendable 8192) rfl (hunread _) old).mp h small List.mem_cons_self
    exact absurd hsmall (by decide)
  · refine (inStep_iff .leftFirst (hsendable 262144) rfl (hunread _) old).mpr ?_
    exact List.forall_mem_cons.mpr
      ⟨by show 262144 / 65536 = 2 + 2; decide, List.forall_mem_singleton.mpr True.intro⟩

end KzrStandard
