import Kzr.InteractionCodecProofs

/-! # Encoding an interaction and decoding it again

    Every interaction that encodes has an encoding of its own, delimited by
    itself: encodings are told apart whatever follows them.  Decoding one
    consumes exactly its bytes, so a sequence of messages is taken apart where
    it was put together, and the side, the class, the header, the number of
    list elements and the raw data come back.

    Strings do not.  The decoder writes the characters past the end of a
    string whose size it never changes, so a fresh one stays empty, and the
    whole message survives exactly when it holds no character. -/

namespace KzrRoundTrip

open WireFormat LittleEndian KzrOperation KzrMessageStream KzrPrimitive KzrCodec KzrMessage
open KzrMessageCodec KzrInteraction KzrInteractionCodec

variable {dir : MessageDirection} {kind : ConceptualOperation}

/-! ## The strings of a message -/

/-- Every string field of the message held, list elements included. -/
def heldStrings : (dir : MessageDirection) → (kind : ConceptualOperation) →
    BoundType dir kind → List Bytes
  | .Request, .Version  => fun m : VersionRequest => [m.version]
  | .Request, .Auth     => fun m : AuthenticationRequest => [m.uname, m.aname]
  | .Request, .Attach   => fun m : AttachRequest => [m.uname, m.aname]
  | .Request, .Walk     => fun m : WalkRequest => m.wname
  | .Request, .Create   => fun m : CreateRequest => [m.name]
  | .Request, .WStat    => fun m : WStatRequest =>
      [m.stat.name, m.stat.uid, m.stat.gid, m.stat.muid]
  | .Response, .Version => fun m : VersionResponse => [m.version]
  | .Response, .Error   => fun m : ErrorResponse => [m.ename]
  | .Response, .Stat    => fun m : StatResponse => [m.data]
  | _, _                => fun _ => []

/-- The strings of an interaction. -/
def strings : Interaction → List Bytes
  | .response r => heldStrings .Response r.kind r.held
  | .request r  => heldStrings .Request r.kind r.held

/-- A fresh string stays empty. -/
theorem storeAt_nil (s : Bytes) : storeAt [] s = [] := by simp [storeAt]

@[simp] theorem storeAt_nil_eq_iff {s : Bytes} : storeAt [] s = s ↔ s = [] := by
  rw [storeAt_nil, eq_comm]

theorem map_storeAt_nil {l : List Bytes} :
    l.map (storeAt []) = l ↔ ∀ s ∈ l, s = [] := by
  induction l with
  | nil => simp
  | cons s l ih =>
      rw [List.map_cons, List.cons.injEq, storeAt_nil_eq_iff, ih, List.forall_mem_cons]

/-- Evaluated left first, a new vector of qids is the vector sent. -/
theorem map_received_qid (l : List Qid) : [] ++ l.map (qid.received .leftFirst {}) = l :=
  (List.nil_append _).trans (List.map_id l)

/-- **WHAT SURVIVES A DECODE**: into a new object, evaluated left first, the
    message held comes back exactly when none of its strings has a character. -/
theorem receivedHeld_eq_iff (held : BoundType dir kind) :
    receivedHeld .leftFirst dir kind held = held ↔ ∀ s ∈ heldStrings dir kind held, s = [] := by
  have stringless : heldStrings dir kind held = [] →
      receivedHeld .leftFirst dir kind held = held →
      (receivedHeld .leftFirst dir kind held = held
        ↔ ∀ s ∈ heldStrings dir kind held, s = []) := by
    intro hnone heq
    rw [hnone]
    exact iff_of_true heq (fun s hs => nomatch hs)
  -- the classes with strings one by one; the others hold none and lose nothing
  cases dir with
  | Request =>
      cases kind with
      | Version =>
          obtain ⟨parent, version, msize⟩ : VersionRequest := held
          show (⟨parent, storeAt [] version, msize⟩ : VersionRequest) = ⟨parent, version, msize⟩
            ↔ ∀ s ∈ [version], s = []
          simp
      | Auth =>
          obtain ⟨parent, afid, uname, aname⟩ : AuthenticationRequest := held
          show (⟨parent, afid, storeAt [] uname, storeAt [] aname⟩ : AuthenticationRequest)
            = ⟨parent, afid, uname, aname⟩ ↔ ∀ s ∈ [uname, aname], s = []
          simp
      | Attach =>
          obtain ⟨parent, fid, afid, uname, aname⟩ : AttachRequest := held
          show (⟨parent, fid, afid, storeAt [] uname, storeAt [] aname⟩ : AttachRequest)
            = ⟨parent, fid, afid, uname, aname⟩ ↔ ∀ s ∈ [uname, aname], s = []
          simp
      | Walk =>
          obtain ⟨parent, fid, newfid, wname⟩ : WalkRequest := held
          show (⟨parent, fid, newfid, wname.map (storeAt [])⟩ : WalkRequest)
            = ⟨parent, fid, newfid, wname⟩ ↔ ∀ s ∈ wname, s = []
          rw [← map_storeAt_nil, WalkRequest.mk.injEq]
          simp
      | Create =>
          obtain ⟨parent, fid, ⟨name⟩, perm, mode⟩ : CreateRequest := held
          show (⟨parent, fid, ⟨storeAt [] name⟩, perm, mode⟩ : CreateRequest)
            = ⟨parent, fid, ⟨name⟩, perm, mode⟩ ↔ ∀ s ∈ [name], s = []
          simp
      | WStat =>
          obtain ⟨parent, fid, ⟨qid, ⟨name⟩, type, dev, mode, atime, mtime, length, uid, gid,
            muid⟩⟩ : WStatRequest := held
          show (⟨parent, fid, ⟨qid, ⟨storeAt [] name⟩, type, dev, mode, atime, mtime, length,
              storeAt [] uid, storeAt [] gid, storeAt [] muid⟩⟩ : WStatRequest)
            = ⟨parent, fid, ⟨qid, ⟨name⟩, type, dev, mode, atime, mtime, length, uid, gid, muid⟩⟩
            ↔ ∀ s ∈ [name, uid, gid, muid], s = []
          simp
      | _ => exact stringless rfl rfl
  | Response =>
      cases kind with
      | Version =>
          obtain ⟨parent, version, msize⟩ : VersionResponse := held
          show (⟨parent, storeAt [] version, msize⟩ : VersionResponse) = ⟨parent, version, msize⟩
            ↔ ∀ s ∈ [version], s = []
          simp
      | Error =>
          obtain ⟨parent, ename⟩ : ErrorResponse := held
          show (⟨parent, storeAt [] ename⟩ : ErrorResponse) = ⟨parent, ename⟩
            ↔ ∀ s ∈ [ename], s = []
          simp
      | Stat =>
          obtain ⟨parent, data⟩ : StatResponse := held
          show (⟨parent, storeAt [] data⟩ : StatResponse) = ⟨parent, data⟩ ↔ ∀ s ∈ [data], s = []
          simp
      | Walk =>
          obtain ⟨parent, wqid⟩ : WalkResponse := held
          -- qids have no strings; the new list ends up as the one sent
          refine stringless rfl ?_
          show (⟨parent, [] ++ wqid.map (qid.received .leftFirst {})⟩ : WalkResponse)
            = ⟨parent, wqid⟩
          rw [map_received_qid]
      | _ => exact stringless rfl rfl

theorem received_eq_iff (i : Interaction) :
    received .leftFirst i = i ↔ ∀ s ∈ strings i, s = [] := by
  rcases i with ⟨kind, held⟩ | ⟨kind, held⟩
  · refine Iff.trans ?_ (receivedHeld_eq_iff held)
    simp [received]
  · refine Iff.trans ?_ (receivedHeld_eq_iff held)
    simp [received]

/-! ## One message -/

/-- An encoder that returns normally has appended the encoding. -/
theorem encodeInteraction_ok {i : Interaction} {msg msg' : MessageStream} (hc : i.Constructed)
    (hw : msg.Writable) (h : encodeInteraction i msg = .ok () msg') :
    ∃ bs, interactionFormat.encode i = some bs ∧ msg' = msg.append bs :=
  (encodes_interaction hc).of_ok hw h

/-- The stream of one encoded interaction, and what decoding it leaves. -/
theorem decode_encoded (order : ArgOrder) {i : Interaction} {msg msg' : MessageStream}
    (hc : i.Constructed) (hw : msg.Writable) (hempty : msg.unread = [])
    (h : encodeInteraction i msg = .ok () msg') (old : Interaction) :
    ∃ msg'', decodeInteraction order (msg', old) = .ok () (msg'', received order i) := by
  obtain ⟨bs, henc, rfl⟩ := encodeInteraction_ok hc hw h
  have hu : (msg.append bs).unread = bs ++ [] := by
    rw [unread_append, hempty, List.nil_append, List.append_nil]
  have hg : (msg.append bs).good = true := hw.good
  exact ⟨_, decodeInteraction_of_encoding order henc hg hu old⟩

/-- **THE ROUND TRIP**: an interaction encoded into an empty stream comes back
    from it unchanged exactly when each of its strings is empty. -/
theorem interaction_roundTrip_iff {i : Interaction} {msg msg' : MessageStream}
    (hc : i.Constructed) (hw : msg.Writable) (hempty : msg.unread = [])
    (h : encodeInteraction i msg = .ok () msg') :
    (∃ msg'', decodeInteraction .leftFirst (msg', .new) = .ok () (msg'', i))
      ↔ ∀ s ∈ strings i, s = [] := by
  obtain ⟨back, hback⟩ := decode_encoded .leftFirst hc hw hempty h .new
  rw [← received_eq_iff]
  constructor
  · rintro ⟨msg'', hi⟩
    rw [hback] at hi
    injection hi with hunit hpair
    exact congrArg Prod.snd hpair
  · intro hi
    rw [hi] at hback
    exact ⟨back, hback⟩

/-- A flush request has no string to lose. -/
theorem interaction_roundTrip_flush :
    ∃ msg, encodeInteraction (.request ⟨.Flush, ({ oldtag := 513 } : FlushRequest)⟩)
        (.new fun _ => 0) = .ok () msg
      ∧ ∃ msg'', decodeInteraction .leftFirst (msg, .new)
          = .ok () (msg'', .request ⟨.Flush, ({ oldtag := 513 } : FlushRequest)⟩) :=
  ⟨_, rfl, (interaction_roundTrip_iff
    (i := .request ⟨.Flush, ({ oldtag := 513 } : FlushRequest)⟩) rfl
    (writable_new fun _ => 0) rfl rfl).mpr (fun _ hs => nomatch hs)⟩

/-- An error response comes back without its text. -/
theorem interaction_roundTrip_error_lost :
    ∃ msg, encodeInteraction (.response ⟨.Error, ({ ename := [110, 111] } : ErrorResponse)⟩)
        (.new fun _ => 0) = .ok () msg
      ∧ ¬ ∃ msg'', decodeInteraction .leftFirst (msg, .new)
          = .ok () (msg'', .response ⟨.Error, ({ ename := [110, 111] } : ErrorResponse)⟩) := by
  refine ⟨_, rfl, ?_⟩
  rintro ⟨msg'', h⟩
  obtain ⟨back, hback⟩ := decode_encoded .leftFirst
    (i := .response ⟨.Error, ({ ename := [110, 111] } : ErrorResponse)⟩) rfl
    (writable_new fun _ => 0) rfl rfl .new
  rw [hback] at h
  injection h with hunit hpair
  injection hpair with hmsg hsame
  have hlost := (received_eq_iff _).mp hsame
  have htext : ([110, 111] : Bytes) = [] := hlost _ List.mem_cons_self
  exact nomatch htext

/-! ## Unique decodability -/

/-- **UNIQUE DECODABILITY**: an encoding determines its interaction and where
    it ends, whatever follows. -/
theorem interaction_encoding_unique {a b : Interaction} {x y : Bytes}
    {indeterminate : Nat → UInt8} {sa sb : MessageStream}
    (ha : a.Constructed) (hb : b.Constructed)
    (hsa : encodeInteraction a (.new indeterminate) = .ok () sa)
    (hsb : encodeInteraction b (.new indeterminate) = .ok () sb)
    (h : sa.str ++ x = sb.str ++ y) : a = b ∧ x = y := by
  obtain ⟨ea, hea, rfl⟩ := encodeInteraction_ok ha (writable_new indeterminate) hsa
  obtain ⟨eb, heb, rfl⟩ := encodeInteraction_ok hb (writable_new indeterminate) hsb
  exact interactionFormat.unique hea heb h

/-- A remove request and two trailing bytes are told apart one way only. -/
theorem interaction_encoding_unique_remove :
    ∃ msg, encodeInteraction (.request ⟨.Remove, ({ fid := 9 } : RemoveRequest)⟩)
        (.new fun _ => 0) = .ok () msg
      ∧ msg.str = [122, 255, 255, 9, 0, 0, 0]
      ∧ ∀ y, msg.str ++ [1, 2] = msg.str ++ y → [1, 2] = y :=
  ⟨_, rfl, rfl, fun _ h => (interaction_encoding_unique
    (a := .request ⟨.Remove, ({ fid := 9 } : RemoveRequest)⟩)
    (b := .request ⟨.Remove, ({ fid := 9 } : RemoveRequest)⟩) rfl rfl rfl rfl h).2⟩

/-! ## A sequence of messages -/

/-- The element counts of the name list and the qid list, and the raw data. -/
def heldLists : (dir : MessageDirection) → (kind : ConceptualOperation) →
    BoundType dir kind → Nat × Nat × Bytes
  | .Request, .Walk  => fun m : WalkRequest => (m.wname.length, 0, [])
  | .Request, .Write => fun m : WriteRequest => (0, 0, m.data)
  | .Response, .Walk => fun m : WalkResponse => (0, m.wqid.length, [])
  | .Response, .Read => fun m : ReadResponse => (0, 0, m.data)
  | _, _             => fun _ => (0, 0, [])

/-- What of a message never depends on strings or on the order of evaluation:
    its side, class and header, the sizes of its lists, its raw data. -/
structure Outline where
  side : MessageDirection
  kind : ConceptualOperation
  op   : Operation
  tag  : UInt16
  wname : Nat
  wqid  : Nat
  data  : Bytes
deriving DecidableEq

def heldOutline (dir : MessageDirection) (kind : ConceptualOperation)
    (held : BoundType dir kind) : Outline where
  side := dir
  kind := kind
  op := (heldHeader dir kind held).op
  tag := (heldHeader dir kind held).tag
  wname := (heldLists dir kind held).1
  wqid := (heldLists dir kind held).2.1
  data := (heldLists dir kind held).2.2

def outline : Interaction → Outline
  | .response r => heldOutline .Response r.kind r.held
  | .request r  => heldOutline .Request r.kind r.held

theorem heldHeader_received (order : ArgOrder) (held : BoundType dir kind) :
    heldHeader dir kind (receivedHeld order dir kind held) = heldHeader dir kind held := by
  by_cases hk : kind = .Undefined
  · rw [receivedHeld, dif_neg (not_not.mpr hk)]
  · rw [receivedHeld, dif_pos hk, heldHeader_eq hk, heldHeader_eq hk]
    exact (codec dir kind hk).header_received order _ held

theorem heldLists_received (order : ArgOrder) (held : BoundType dir kind) :
    heldLists dir kind (receivedHeld order dir kind held) = heldLists dir kind held := by
  cases dir with
  | Request =>
      cases kind with
      | Walk =>
          obtain ⟨parent, fid, newfid, wname⟩ : WalkRequest := held
          show (([] ++ wname.map (storeAt [])).length, 0, []) = (wname.length, 0, ([] : Bytes))
          rw [List.nil_append, List.length_map]
      | _ => rfl
  | Response =>
      cases kind with
      | Walk =>
          obtain ⟨parent, wqid⟩ : WalkResponse := held
          show (0, ([] ++ wqid.map (qid.received order {})).length, [])
            = (0, wqid.length, ([] : Bytes))
          rw [List.nil_append, List.length_map]
      | _ => rfl

theorem outline_received (order : ArgOrder) (i : Interaction) :
    outline (received order i) = outline i := by
  rcases i with ⟨kind, held⟩ | ⟨kind, held⟩ <;>
    simp only [outline, received, heldOutline, heldHeader_received, heldLists_received]

/-- Decoding interactions one after another, each into a fresh one: what every
    decode returned, and the bytes it took. -/
inductive DecodeRun (order : ArgOrder) :
    MessageStream → List (Interaction × Bytes) → MessageStream → Prop where
  | nil (msg : MessageStream) : DecodeRun order msg [] msg
  | cons {msg msg' msg'' : MessageStream} {i : Interaction} {used : Bytes}
      {is : List (Interaction × Bytes)} :
      decodeInteraction order (msg, .new) = .ok () (msg', i) →
      msg.unread = used ++ msg'.unread →
      DecodeRun order msg' is msg'' →
      DecodeRun order msg ((i, used) :: is) msg''

/-- The bytes an interaction encodes to, on a stream of its own. -/
def encodingOf (i : Interaction) : Bytes :=
  match encodeInteraction i (.new fun _ => 0) with
  | .ok () msg  => msg.str
  | .error _ _  => []

theorem encodingOf_eq {i : Interaction} {bs : Bytes} (hc : i.Constructed)
    (henc : interactionFormat.encode i = some bs) : encodingOf i = bs := by
  rw [encodingOf, (encodes_interaction hc).appends bs henc _ (writable_new fun _ => 0)]
  rfl

/-- One after another, encodings are decoded where they were put together. -/
theorem decodeRun_of_encodings (order : ArgOrder) {is : List Interaction}
    (hc : ∀ i ∈ is, i.Constructed) :
    ∀ {bs rest : Bytes} {msg : MessageStream},
      encodeEach interactionFormat.encode is = some bs → msg.good = true →
      msg.unread = bs ++ rest →
      DecodeRun order msg (is.map fun i => (received order i, encodingOf i))
        (msg.advance bs.length) := by
  induction is with
  | nil =>
      intro bs rest msg h hg hu
      cases h
      rw [List.length_nil, advance_zero]
      exact .nil msg
  | cons i is ih =>
      intro bs rest msg h hg hu
      -- the first decode leaves the stream good and at the encodings of the others
      obtain ⟨e, es, he, hes, rfl⟩ := cat_eq_some.mp h
      rw [List.append_assoc] at hu
      have hrest : (msg.advance e.length).unread = es ++ rest := by
        rw [unread_advance, hu, List.drop_left]
      have hrun := ih (fun j hj => hc j (List.mem_cons_of_mem i hj)) hes
        ((good_advance msg e.length).trans hg) hrest
      rw [advance_advance, ← List.length_append] at hrun
      refine .cons (decodeInteraction_of_encoding order he hg hu .new) ?_ hrun
      rw [encodingOf_eq (hc i List.mem_cons_self) he, hrest, hu]

/-- Interactions that encode one by one encode in sequence. -/
theorem encodeEach_of_each {indeterminate : Nat → UInt8} {is : List Interaction}
    (hc : ∀ i ∈ is, i.Constructed)
    (he : ∀ i ∈ is, ∃ msg, encodeInteraction i (.new indeterminate) = .ok () msg) :
    ∃ bs, encodeEach interactionFormat.encode is = some bs := by
  induction is with
  | nil => exact ⟨[], rfl⟩
  | cons i is ih =>
      obtain ⟨msg, hmsg⟩ := he i List.mem_cons_self
      obtain ⟨e, henc, -⟩ :=
        encodeInteraction_ok (hc i List.mem_cons_self) (writable_new indeterminate) hmsg
      obtain ⟨es, hes⟩ := ih (fun j hj => hc j (List.mem_cons_of_mem i hj))
        (fun j hj => he j (List.mem_cons_of_mem i hj))
      exact ⟨e ++ es, by rw [encodeEach, henc, hes, cat_some]⟩

/-- **SYNCHRONISATION**: messages encoded one after another into a new stream
    are decoded one after another from it, each from exactly its own bytes and
    with its own outline, until nothing is left. -/
theorem interactions_synchronised (order : ArgOrder) {indeterminate : Nat → UInt8}
    {is : List Interaction} (hc : ∀ i ∈ is, i.Constructed)
    (he : ∀ i ∈ is, ∃ msg, encodeInteraction i (.new indeterminate) = .ok () msg) :
    ∃ msg, encodeElements encodeInteraction is (.new indeterminate) = .ok () msg
      ∧ ∃ js msg', DecodeRun order msg js msg'
        ∧ js.map (fun j => outline j.1) = is.map outline
        ∧ js.map (fun j => j.2) = is.map encodingOf
        ∧ msg'.unread = [] ∧ msg'.good = true := by
  obtain ⟨bs, hbs⟩ := encodeEach_of_each hc he
  have henc := (encodes_elements is fun i hi => encodes_interaction (hc i hi)).appends bs hbs _
    (writable_new indeterminate)
  have hu : ((MessageStream.new indeterminate).append bs).unread = bs ++ [] := by
    rw [unread_append, List.append_nil]
    rfl
  refine ⟨_, henc, _, _, decodeRun_of_encodings order hc hbs rfl hu, ?_, ?_, ?_, rfl⟩
  · rw [List.map_map]
    exact List.map_congr_left fun i _ => outline_received order i
  · rw [List.map_map]
    exact List.map_congr_left fun i _ => rfl
  · rw [unread_advance, hu, List.append_nil, List.drop_length]

/-- A walk over two names, then a read from an offset. -/
def walkThenRead : List Interaction :=
  [.request ⟨.Walk, ({ wname := [[97], [98, 99]] } : WalkRequest)⟩,
    .request ⟨.Read, ({ offset := 4294967296, count := 8 } : ReadRequest)⟩]

/-- Decoded right first, the two requests stay apart. -/
theorem interactions_synchronised_walkThenRead :
    ∃ msg, encodeElements encodeInteraction walkThenRead (.new fun _ => 0) = .ok () msg
      ∧ ∃ js msg', DecodeRun .rightFirst msg js msg'
        ∧ js.map (fun j => outline j.1)
          = [⟨.Request, .Walk, .TWalk, notag, 2, 0, []⟩, ⟨.Request, .Read, .TRead, notag, 0, 0, []⟩]
        ∧ js.map (fun j => j.2.length) = [20, 19]
        ∧ msg'.unread = [] ∧ msg'.good = true := by
  have hc : ∀ i ∈ walkThenRead, i.Constructed :=
    List.forall_mem_cons.mpr ⟨rfl, List.forall_mem_cons.mpr ⟨rfl, nofun⟩⟩
  have he : ∀ i ∈ walkThenRead, ∃ msg, encodeInteraction i (.new fun _ => 0) = .ok () msg :=
    List.forall_mem_cons.mpr ⟨⟨_, rfl⟩, List.forall_mem_cons.mpr ⟨⟨_, rfl⟩, nofun⟩⟩
  obtain ⟨msg, henc, js, msg', hrun, hout, hused, hend⟩ :=
    interactions_synchronised .rightFirst hc he
  refine ⟨msg, henc, js, msg', hrun, hout, ?_, hend⟩
  have hlen := congrArg (List.map List.length) hused
  rw [List.map_map] at hlen
  exact hlen

end KzrRoundTrip
