import Kzr.FieldProofs
import Kzr.QueueProofs

/-! # The wire format against 9P2000

    The message bodies of 9P2000, written down from the protocol and not from
    the encoders: the operation, the tag, and for every message its fields in
    order, each an integer of a stated width, a string behind its 2-byte
    length, a qid, a counted list, or a block of bytes behind its count.

    The encoders write exactly these bodies but for two of them.  A version
    message has a 2-byte `msize` where the protocol has four, and the stat of a
    `Twstat` goes out behind one length where the protocol has two: the length
    of the stat inside, and the count of bytes in front. -/

namespace KzrNineP

open WireFormat LittleEndian KzrOperation KzrMessageStream KzrPrimitive KzrCodec KzrMessage
open KzrMessageCodec KzrInteraction KzrInteractionCodec
open KzrField (Field Consists consists_codec headerFields memberFields)
open KzrQueue (integerBytes)

variable {α β γ : Type} {dir : MessageDirection} {kind : ConceptualOperation}

/-! ## The protocol -/

/-- `x[s]` -/
def str (s : Bytes) : Bytes := le 2 s.length ++ s

/-- `qid[13] = type[1] vers[4] path[8]` -/
def qidBytes (q : Qid) : Bytes :=
  [le 1 q.type.toNat, le 4 q.version.toNat, le 8 q.path.toNat].flatten

/-- What follows the size of a stat. -/
def statMembersBytes (s : Stat) : Bytes :=
  [le 2 s.type.toNat, le 4 s.dev.toNat, qidBytes s.qid, le 4 s.mode.toNat, le 4 s.atime.toNat,
    le 4 s.mtime.toNat, le 8 s.length.toNat, str s.name, str s.uid, str s.gid, str s.muid].flatten

/-- `stat = size[2] type[2] dev[4] qid[13] … muid[s]` -/
def statBytes (s : Stat) : Bytes := le 2 (statMembersBytes s).length ++ statMembersBytes s

/-- The message types of 9P2000; an undefined message has none. -/
def opcode : MessageDirection → ConceptualOperation → Nat
  | .Request, .Version    => 100
  | .Response, .Version   => 101
  | .Request, .Auth       => 102
  | .Response, .Auth      => 103
  | .Request, .Attach     => 104
  | .Response, .Attach    => 105
  | .Request, .Error      => 106
  | .Response, .Error     => 107
  | .Request, .Flush      => 108
  | .Response, .Flush     => 109
  | .Request, .Walk       => 110
  | .Response, .Walk      => 111
  | .Request, .Open       => 112
  | .Response, .Open      => 113
  | .Request, .Create     => 114
  | .Response, .Create    => 115
  | .Request, .Read       => 116
  | .Response, .Read      => 117
  | .Request, .Write      => 118
  | .Response, .Write     => 119
  | .Request, .Clunk      => 120
  | .Response, .Clunk     => 121
  | .Request, .Remove     => 122
  | .Response, .Remove    => 123
  | .Request, .Stat       => 124
  | .Response, .Stat      => 125
  | .Request, .WStat      => 126
  | .Response, .WStat     => 127
  | .Request, .Undefined  => 0
  | .Response, .Undefined => 0

/-- The fields of each message, in order. -/
def fields : (dir : MessageDirection) → (kind : ConceptualOperation) → BoundType dir kind →
    List Bytes
  | .Request, .Version => fun m : VersionRequest => [le 4 m.msize.toNat, str m.version]
  | .Response, .Version => fun m : VersionResponse => [le 4 m.msize.toNat, str m.version]
  | .Request, .Auth => fun m : AuthenticationRequest =>
      [le 4 m.afid.toNat, str m.uname, str m.aname]
  | .Response, .Auth => fun m : AuthenticationResponse => [qidBytes m.qid]
  | .Response, .Error => fun m : ErrorResponse => [str m.ename]
  | .Request, .Flush => fun m : FlushRequest => [le 2 m.oldtag.toNat]
  | .Request, .Attach => fun m : AttachRequest =>
      [le 4 m.fid.toNat, le 4 m.afid.toNat, str m.uname, str m.aname]
  | .Response, .Attach => fun m : AttachResponse => [qidBytes m.qid]
  | .Request, .Walk => fun m : WalkRequest =>
      [le 4 m.fid.toNat, le 4 m.newfid.toNat, le 2 m.wname.length, m.wname.flatMap str]
  | .Response, .Walk => fun m : WalkResponse => [le 2 m.wqid.length, m.wqid.flatMap qidBytes]
  | .Request, .Open => fun m : OpenRequest => [le 4 m.fid.toNat, le 1 m.mode.toNat]
  | .Response, .Open => fun m : OpenResponse => [qidBytes m.qid, le 4 m.iounit.toNat]
  | .Request, .Create => fun m : CreateRequest =>
      [le 4 m.fid.toNat, str m.name, le 4 m.perm.toNat, le 1 m.mode.toNat]
  | .Response, .Create => fun m : CreateResponse => [qidBytes m.qid, le 4 m.iounit.toNat]
  | .Request, .Read => fun m : ReadRequest =>
      [le 4 m.fid.toNat, le 8 m.offset.toNat, le 4 m.count.toNat]
  | .Response, .Read => fun m : ReadResponse => [le 4 m.data.length, m.data]
  | .Request, .Write => fun m : WriteRequest =>
      [le 4 m.fid.toNat, le 8 m.offset.toNat, le 4 m.data.length, m.data]
  | .Response, .Write => fun m : WriteResponse => [le 4 m.count.toNat]
  | .Request, .Clunk => fun m : ClunkRequest => [le 4 m.fid.toNat]
  | .Request, .Remove => fun m : RemoveRequest => [le 4 m.fid.toNat]
  | .Request, .Stat => fun m : StatRequest => [le 4 m.fid.toNat]
  | .Response, .Stat => fun m : StatResponse => [le 2 m.data.length, m.data]
  | .Request, .WStat => fun m : WStatRequest =>
      [le 4 m.fid.toNat, le 2 (statBytes m.stat).length, statBytes m.stat]
  | _, _ => fun _ => []

/-- `op[1] tag[2]` and the fields. -/
def body (v : Variant dir) : Bytes :=
  (le 1 (opcode dir v.kind) :: le 2 v.getTag.toNat :: fields dir v.kind v.held).flatten

/-! ## Encoders that spell a given text -/

/-- Whatever `e` encodes, it encodes to `text`. -/
def Spells (e : α → Option Bytes) (text : α → Bytes) : Prop :=
  ∀ a bs, e a = some bs → bs = text a

theorem Spells.congr {e : α → Option Bytes} {s t : α → Bytes} (hs : Spells e s)
    (h : ∀ a, s a = t a) : Spells e t :=
  fun a bs he => (hs a bs he).trans (h a)

theorem spells_uint8 : Spells uint8.format.encode (fun v => le 1 v.toNat) := by
  intro v bs h
  cases h
  exact (le_one v).symm

theorem spells_uint16 : Spells uint16.format.encode (fun v => le 2 v.toNat) :=
  fun v _ h => Option.some.inj (h.symm.trans (u16_encode v))

theorem spells_uint32 : Spells uint32.format.encode (fun v => le 4 v.toNat) :=
  fun v _ h => Option.some.inj (h.symm.trans (u32_encode v))

theorem spells_uint64 : Spells uint64.format.encode (fun v => le 8 v.toNat) :=
  fun v _ h => Option.some.inj (h.symm.trans (u64_encode v))

theorem spells_uint (k : Nat) : Spells (uint k).encode (le k) :=
  fun _ _ h => Option.some.inj (h.symm.trans (uint_encode (lt_of_uint_encode h)))

/-- Two codecs in a row. -/
theorem Spells.pair {c : Codec α} {d : Codec β} {s : α → Bytes} {t : β → Bytes}
    (hc : Spells c.format.encode s) (hd : Spells d.format.encode t) :
    Spells (c.pair d).format.encode (fun p => s p.1 ++ t p.2) := by
  intro p bs h
  obtain ⟨as, cs, h1, h2, rfl⟩ := cat_eq_some.mp h
  rw [hc _ _ h1, hd _ _ h2]

/-- Renaming the fields renames the text. -/
theorem Spells.via {c : Codec γ} {s : γ → Bytes} {fields : α → γ} {make : γ → α}
    {make_fields : ∀ a, make (fields a) = a} {fields_make : ∀ t, fields (make t) = t}
    (hc : Spells c.format.encode s) :
    Spells (c.via fields make make_fields fields_make).format.encode (fun a => s (fields a)) :=
  fun a bs h => hc (fields a) bs h

theorem Spells.each {e : α → Option Bytes} {s : α → Bytes} (he : Spells e s) :
    Spells (encodeEach e) (fun as => as.flatMap s) := by
  intro as
  induction as with
  | nil =>
      intro bs h
      cases h
      rfl
  | cons a as ih =>
      intro bs h
      obtain ⟨u, v, h1, h2, rfl⟩ := cat_eq_some.mp h
      rw [he a u h1, ih v h2]
      exact List.flatMap_cons.symm

/-- A list is spelled element by element behind its count. -/
theorem Spells.counted {k : Nat} {f : Format UInt8 α} {s : α → Bytes} (hf : Spells f.encode s) :
    Spells (Format.counted (uint k) f).encode (fun as => le k as.length ++ as.flatMap s) := by
  intro as bs h
  obtain ⟨u, v, h1, h2, rfl⟩ := cat_eq_some.mp h
  rw [spells_uint k _ _ h1, hf.each _ _ h2]

/-- Bytes are spelled as they are behind their count. -/
theorem spells_bytes (k : Nat) :
    Spells (Format.counted (uint k) u8).encode (fun s => le k s.length ++ s) := by
  intro s bs h
  obtain ⟨u, v, h1, h2, rfl⟩ := cat_eq_some.mp h
  rw [encodeEach_u8] at h2
  cases h2
  rw [spells_uint k _ _ h1]

/-- A string is spelled as the protocol has it. -/
theorem spells_string : Spells string.format.encode str := spells_bytes 2

/-! ## What the encoders spell -/

theorem spells_qid : Spells qid.format.encode qidBytes := by
  intro q bs h
  have hq := (spells_uint8.pair (spells_uint32.pair spells_uint64)).via q bs h
  simpa [qidBytes] using hq

/-- The bytes of a field. -/
def spelled : Field → Bytes
  | .integer v => integerBytes v
  | .qid q     => qidBytes q
  | .text s    => str s
  | .names l   => le 2 l.length ++ l.flatMap str
  | .qids l    => le 2 l.length ++ l.flatMap qidBytes
  | .data s    => le 4 s.length ++ s
  | .stat m    => statBytes m

/-- A codec of one field. -/
theorem Spells.field {e : α → Option Bytes} {x : α → Field} (h : Spells e fun a => spelled (x a)) :
    Spells e fun a => [x a].flatMap spelled :=
  h.congr fun a => by rw [List.flatMap_singleton]

/-- The encoder puts one length in front of the members of a stat. -/
theorem spells_stat (hm : Spells statMembers.format.encode statMembersBytes) :
    Spells stat.format.encode statBytes := by
  intro m bs h
  have h' : (statMembers.format.encode m).bind stringFormat.encode = some bs := by
    rw [← statFormat_encode]
    exact h
  obtain ⟨as, has, hbs⟩ := Option.bind_eq_some_iff.mp h'
  rw [spells_string as bs hbs, hm m as has]
  rfl

/-- **FIELD BY FIELD**: whatever is made of fields spells them one after the
    other. -/
theorem spells_of_consists {stats : Prop} {c : Codec α} {f : α → List Field}
    (h : Consists stats c f) : Spells c.format.encode fun a => (f a).flatMap spelled := by
  induction h with
  | uint8 => exact .field (spells_uint8.congr fun v => le_one v)
  | uint16 => exact .field spells_uint16
  | uint32 => exact .field spells_uint32
  | uint64 => exact .field spells_uint64
  | qid => exact .field spells_qid
  | string => exact .field spells_string
  | names => exact .field spells_string.counted
  | qids => exact .field spells_qid.counted
  | data => exact .field fun m bs h => spells_bytes 4 m.data bs h
  | stat _ _ ih => exact .field (spells_stat (ih.congr fun m => by simp [memberFields, spelled,
      integerBytes, statMembersBytes]))
  | pair _ _ ihc ihd => exact (ihc.pair ihd).congr fun p => List.flatMap_append.symm
  | via _ ih => exact ih.via

/-- The header as the encoder spells it. -/
def headerBytes (h : MessageHeader) : Bytes := le 1 h.op.code.toNat ++ le 2 h.tag.toNat

theorem spelled_header (h : MessageHeader) :
    (headerFields h).flatMap spelled = headerBytes h := by
  simp [headerFields, spelled, integerBytes, headerBytes, le_one]

/-- **WHAT THE ENCODERS WRITE**: the header, and the bytes of the fields. -/
theorem spells_codec (hk : kind ≠ .Undefined) :
    Spells (codec dir kind hk).format.encode
      (fun held => headerBytes (heldHeader dir kind held)
        ++ (KzrField.fields dir kind held).flatMap spelled) :=
  (spells_of_consists (consists_codec hk)).congr fun held => by
    rw [List.flatMap_append, spelled_header]

/-- All but the two messages with a layout of their own. -/
def standard : MessageDirection → ConceptualOperation → Bool
  | .Request, .WStat => false
  | _, .Version      => false
  | _, _             => true

/-- But for these two, the fields are those of the protocol. -/
theorem fields_standard (hs : standard dir kind = true) (held : BoundType dir kind) :
    (KzrField.fields dir kind held).flatMap spelled = (fields dir kind held).flatten := by
  have hmode (v : UInt8) : spelled (.integer (.u8 v)) = le 1 v.toNat := (le_one v).symm
  cases dir with
  | Request =>
      cases kind with
      | Open =>
          obtain ⟨parent, fid, mode⟩ : OpenRequest := held
          show le 4 fid.fid.toNat ++ (spelled (.integer (.u8 mode)) ++ [])
            = [le 4 fid.fid.toNat, le 1 mode.toNat].flatten
          rw [hmode]
          rfl
      | Create =>
          obtain ⟨parent, fid, name, perm, mode⟩ : CreateRequest := held
          show le 4 fid.fid.toNat ++ (str name.name ++ (le 4 perm.toNat
            ++ (spelled (.integer (.u8 mode)) ++ [])))
            = [le 4 fid.fid.toNat, str name.name, le 4 perm.toNat, le 1 mode.toNat].flatten
          rw [hmode]
          rfl
      | Version => exact nomatch hs
      | WStat => exact nomatch hs
      | _ => rfl
  | Response =>
      cases kind with
      | Version => exact nomatch hs
      | _ => rfl

/-- The operations of the code are the message types of the protocol. -/
theorem code_eq_opcode (hk : kind ≠ .Undefined) :
    (RawOperation kind dir).code.toNat = opcode dir kind := by
  cases dir <;> cases kind <;> first | rfl | exact absurd rfl hk

/-- The body, header first. -/
theorem body_eq {v : Variant dir} (hc : v.Constructed) (hk : v.kind ≠ .Undefined) :
    body v = headerBytes (heldHeader dir v.kind v.held) ++ (fields dir v.kind v.held).flatten := by
  have hop : (heldHeader dir v.kind v.held).op = RawOperation v.kind dir := hc
  rw [headerBytes, hop, code_eq_opcode hk, List.append_assoc]
  rfl

/-- The length of a body, by the width of its first field. -/
theorem length_fields (h : MessageHeader) (k n : Nat) (fs : List Bytes) :
    (headerBytes h ++ (le k n :: fs).flatten).length = 3 + k + fs.flatten.length := by
  have hheader : (headerBytes h).length = 3 := rfl
  rw [List.length_append, hheader, List.flatten_cons, List.length_append, length_le, Nat.add_assoc]

/-- Two bytes are missing from the `msize` of a version message. -/
theorem length_body_version {v : Variant dir} (hv : v.kind = .Version) (hc : v.Constructed)
    (hk : v.kind ≠ .Undefined) {bs : Bytes}
    (h : (codec dir v.kind hk).format.encode v.held = some bs) :
    (body v).length = bs.length + 2 := by
  rw [body_eq hc hk]
  obtain ⟨kind, held⟩ := v
  obtain rfl : kind = .Version := hv
  cases dir with
  | Request =>
      obtain ⟨parent, version, msize⟩ : VersionRequest := held
      have hbs : bs = headerBytes parent.toMessageHeader
          ++ (le 2 msize.toNat :: [str version]).flatten := spells_codec hk _ bs h
      rw [hbs, length_fields]
      refine (length_fields _ 4 _ [str version]).trans ?_
      omega
  | Response =>
      obtain ⟨parent, version, msize⟩ : VersionResponse := held
      have hbs : bs = headerBytes parent.toMessageHeader
          ++ (le 2 msize.toNat :: [str version]).flatten := spells_codec hk _ bs h
      rw [hbs, length_fields]
      refine (length_fields _ 4 _ [str version]).trans ?_
      omega

/-- One of the two lengths is missing in front of the stat of a `Twstat`. -/
theorem length_body_wstat {v : Request} (hv : v.kind = .WStat) (hc : v.Constructed)
    (hk : v.kind ≠ .Undefined) {bs : Bytes}
    (h : (codec .Request v.kind hk).format.encode v.held = some bs) :
    (body v).length = bs.length + 2 := by
  rw [body_eq hc hk]
  obtain ⟨kind, held⟩ := v
  obtain rfl : kind = .WStat := hv
  obtain ⟨parent, fid, stat⟩ : WStatRequest := held
  have hbs : bs = headerBytes parent.toMessageHeader
      ++ (le 4 fid.fid.toNat :: [statBytes stat]).flatten := spells_codec hk _ bs h
  rw [hbs, length_fields]
  refine (length_fields _ 4 _ [le 2 (statBytes stat).length, statBytes stat]).trans ?_
  rw [List.flatten_cons, List.length_append, length_le]
  omega

/-! ## Conformance -/

/-- **CONFORMANCE**: a request or a response is encoded as its 9P2000 body
    exactly when it is neither a version message nor a wstat request. -/
theorem encoding_conforms_iff {v : Variant dir} {msg msg' : MessageStream}
    (hc : v.Constructed) (hw : msg.Writable) (h : encodeVariant v msg = .ok () msg') :
    msg'.str = msg.str ++ body v
      ↔ v.kind ≠ .Version ∧ ¬ (dir = .Request ∧ v.kind = .WStat) := by
  obtain ⟨hk, bs, hbs, rfl⟩ := encodeHeld_ok hw h
  rw [str_append, List.append_cancel_left_eq]
  constructor
  · intro heq
    -- where the layouts differ, so do the lengths
    have hlen : (body v).length ≠ bs.length + 2 := by
      rw [← heq]
      omega
    refine ⟨fun hv => hlen (length_body_version hv hc hk hbs), ?_⟩
    rintro ⟨rfl, hv⟩
    exact hlen (length_body_wstat hv hc hk hbs)
  · rintro ⟨hversion, hwstat⟩
    have hs : standard dir v.kind = true := by
      cases dir <;> cases hv : v.kind <;>
        first
        | rfl
        | exact absurd hv hversion
        | exact absurd ⟨rfl, hv⟩ hwstat
    rw [body_eq hc hk, ← fields_standard hs]
    exact spells_codec hk v.held bs hbs

/-- A version request goes out with a short `msize`. -/
theorem version_request_short :
    ∃ msg', encodeRequest ⟨.Version, ({ msize := 8192, version := [57, 80] } : VersionRequest)⟩
        (.new fun _ => 0) = .ok () msg'
      ∧ msg'.str = [100, 255, 255, 0, 32, 2, 0, 57, 80]
      ∧ ¬ msg'.str = [] ++ body
        (⟨.Version, ({ msize := 8192, version := [57, 80] } : VersionRequest)⟩ : Request) :=
  ⟨_, rfl, rfl, by decide⟩

/-- A create request has the standard body. -/
theorem create_request_conforms :
    ∃ msg', encodeRequest
        ⟨.Create, ({ fid := 1, name := [97], perm := 420, mode := 2 } : CreateRequest)⟩
        (.new fun _ => 0) = .ok () msg'
      ∧ msg'.str = [] ++ body
        (⟨.Create, ({ fid := 1, name := [97], perm := 420, mode := 2 } : CreateRequest)⟩ :
          Request) := by
  have hc : Variant.Constructed
      (⟨.Create, ({ fid := 1, name := [97], perm := 420, mode := 2 } : CreateRequest)⟩ :
        Request) := rfl
  exact ⟨_, rfl, (encoding_conforms_iff hc (writable_new fun _ => 0) rfl).mpr
    ⟨by decide, fun h => nomatch h.2⟩⟩

end KzrNineP
