import Kzr.DraftProofs
import Kzr.NinePProofs
import Kzr.QueueProofs

/-! # What can be encoded, and what is left when it cannot

    A message is its header and its fields in order.  Each field has a limit:
    65535 bytes for a string, 65535 elements for a list, 2^32 - 1 bytes for a
    block of data, 65488 bytes for the four strings of a stat.  A field over
    its limit stops the encoder, and all that stands in front of it has been
    put by then.

    `draft` says that of a message; the encoders are shown to do exactly what
    their drafts say, on every good stream and wherever its put position is.
    Two results are read off: which messages a stream takes and how much it
    grows, and when a refused message leaves it as it was. -/

namespace KzrEncodable

open Drafting WireFormat LittleEndian KzrOperation KzrMessageStream KzrPrimitive KzrIntegerCodec
open KzrCodec KzrMessage KzrInteraction KzrInteractionCodec KzrQueue
open KzrField (Field Consists fields headerFields memberFields consists_codec)
open KzrNineP (str qidBytes statMembersBytes statBytes headerBytes)

variable {α : Type} {dir : MessageDirection} {kind : ConceptualOperation}

/-! ## Fields -/

/-- The bytes of the four strings of a stat. -/
def textLength (m : Stat) : Nat :=
  m.name.length + m.uid.length + m.gid.length + m.muid.length

/-- The field is within its limits. -/
def FieldFits : Field → Prop
  | .integer _ => True
  | .qid _     => True
  | .text s    => s.length ≤ 65535
  | .names l   => l.length ≤ 65535 ∧ ∀ s ∈ l, s.length ≤ 65535
  | .qids l    => l.length ≤ 65535
  | .data s    => s.length ≤ 4294967295
  | .stat m    => textLength m ≤ 65488

/-- How many bytes the field takes. -/
def fieldSize : Field → Nat
  | .integer v => KzrQueue.size v.width
  | .qid _     => 13
  | .text s    => 2 + s.length
  | .names l   => 2 + (l.map fun s => 2 + s.length).sum
  | .qids l    => 2 + (l.map fun _ => 13).sum
  | .data s    => 4 + s.length
  | .stat m    => 49 + textLength m

/-- The message is not an undefined one and its fields are within their limits. -/
def Encodable (v : Variant dir) : Prop :=
  v.kind ≠ .Undefined ∧ ∀ f ∈ fields dir v.kind v.held, FieldFits f

/-- How many bytes the message takes. -/
def encodedSize (v : Variant dir) : Nat :=
  3 + ((fields dir v.kind v.held).map fieldSize).sum

/-! ## Drafts of fields and messages -/

/-- A count of at most 65535, and the elements. -/
def counted (n : Nat) (ds : List (Draft UInt8)) : Draft UInt8 :=
  .check (n ≤ 65535) ((Draft.whole (le 2 n)).seq (.all ds))

/-- What is put of a string. -/
def textDraft (s : Bytes) : Draft UInt8 := .check (s.length ≤ 65535) (.whole (str s))

/-- What is put of a field. -/
def fieldDraft : Field → Draft UInt8
  | .integer v => .whole (integerBytes v)
  | .qid q     => .whole (qidBytes q)
  | .text s    => textDraft s
  | .names l   => counted l.length (l.map textDraft)
  | .qids l    => counted l.length (l.map fun q => .whole (qidBytes q))
  | .data s    => .check (s.length ≤ 4294967295) (.whole (le 4 s.length ++ s))
  | .stat m    => .check (textLength m ≤ 65488) (.whole (statBytes m))

/-- The header, and the fields up to the first over its limit. -/
def body (h : MessageHeader) (fs : List Field) : Draft UInt8 :=
  (Draft.whole (headerBytes h)).seq (.all (fs.map fieldDraft))

/-- What is put of a message; of an undefined one, nothing. -/
def draft (v : Variant dir) : Draft UInt8 :=
  .check (v.kind ≠ .Undefined) (body (heldHeader dir v.kind v.held) (fields dir v.kind v.held))

theorem length_qidBytes (q : Qid) : (qidBytes q).length = 13 := by
  simp [qidBytes]

/-- The members of a stat are 47 bytes and their characters. -/
theorem length_statMembersBytes (m : Stat) :
    (statMembersBytes m).length = 47 + textLength m := by
  simp only [statMembersBytes, str, textLength, List.flatten_cons, List.flatten_nil,
    List.length_append, List.length_nil, length_le, length_qidBytes]
  omega

/-- A field is put whole exactly when it fits. -/
theorem complete_draft (f : Field) : (fieldDraft f).complete = true ↔ FieldFits f := by
  cases f with
  | integer v => simp [fieldDraft, FieldFits]
  | qid q => simp [fieldDraft, FieldFits]
  | text s => simp [fieldDraft, FieldFits, textDraft]
  | names l => simp [fieldDraft, FieldFits, counted, textDraft, complete_all]
  | qids l => simp [fieldDraft, FieldFits, counted, complete_all]
  | data s => simp [fieldDraft, FieldFits]
  | stat m => simp [fieldDraft, FieldFits]

theorem length_textDraft {s : Bytes} (h : s.length ≤ 65535) :
    (textDraft s).written.length = 2 + s.length := by
  simp [textDraft, written_check h, Draft.whole, str]

theorem length_counted {ds : List (Draft UInt8)} {n : Nat} (hn : n ≤ 65535)
    (h : (Draft.all ds).complete = true) :
    (counted n ds).written.length = 2 + (ds.map fun d => d.written.length).sum := by
  rw [counted, written_check hn, written_seq (complete_whole _), List.length_append, length_all h]
  simp [Draft.whole]

/-- A field that fits is put in as many bytes as it takes. -/
theorem length_draft {f : Field} (h : FieldFits f) :
    (fieldDraft f).written.length = fieldSize f := by
  cases f with
  | integer v =>
      cases v <;> simp [fieldDraft, Draft.whole, integerBytes, fieldSize, size, Value.width]
  | qid q => exact length_qidBytes q
  | text s => exact length_textDraft h
  | names l =>
      obtain ⟨hl, hs⟩ := h
      have hall : (Draft.all (l.map textDraft)).complete = true := by
        simpa [complete_all, textDraft] using hs
      have hlen : ∀ s ∈ l, ((fun d => d.written.length) ∘ textDraft) s = 2 + s.length :=
        fun s hmem => length_textDraft (hs s hmem)
      rw [fieldDraft, length_counted hl hall, List.map_map, List.map_congr_left hlen, fieldSize]
  | qids l =>
      have hall : (Draft.all (l.map fun q => Draft.whole (qidBytes q))).complete = true := by
        simp [complete_all]
      have hlen : ∀ q ∈ l, ((fun d => d.written.length) ∘ fun q => Draft.whole (qidBytes q)) q
          = 13 := fun q _ => length_qidBytes q
      rw [fieldDraft, length_counted h hall, List.map_map, List.map_congr_left hlen, fieldSize]
  | data s =>
      have hs : s.length ≤ 4294967295 := h
      simp [fieldDraft, written_check hs, Draft.whole, fieldSize]
  | stat m =>
      have hs : textLength m ≤ 65488 := h
      simp only [fieldDraft, written_check hs, Draft.whole, statBytes, List.length_append,
        length_le, length_statMembersBytes, fieldSize]
      omega

/-- **WHICH MESSAGES GET THROUGH**: those within all limits. -/
theorem complete_draftOf (v : Variant dir) : (draft v).complete = true ↔ Encodable v := by
  simp [draft, body, Encodable, complete_all, complete_draft]

theorem length_draftOf {v : Variant dir} (h : Encodable v) :
    (draft v).written.length = encodedSize v := by
  obtain ⟨hk, hf⟩ := h
  have hall : (Draft.all ((fields dir v.kind v.held).map fieldDraft)).complete = true := by
    simpa [complete_all, complete_draft] using hf
  have hlen : ∀ f ∈ fields dir v.kind v.held, ((fun d => d.written.length) ∘ fieldDraft) f
      = fieldSize f := fun f hmem => length_draft (hf f hmem)
  rw [draft, written_check hk, body, written_seq (complete_whole _), List.length_append,
    length_all hall, List.map_map, List.map_congr_left hlen, encodedSize]
  simp [Draft.whole, headerBytes]

/-! ## Encoders that follow a draft -/

/-- On every good stream `p` puts what `d` says, and then returns or throws. -/
structure Drafts (p : Put) (d : Draft UInt8) : Prop where
  returns : d.complete = true → ∀ msg : MessageStream, msg.good = true →
    p msg = .ok () (writeAll msg d.written)
  throws  : d.complete = false → ∀ msg : MessageStream, msg.good = true →
    ∃ ex, p msg = .error ex (writeAll msg d.written)

theorem good_writeAll (msg : MessageStream) (bs : Bytes) : (writeAll msg bs).good = msg.good :=
  CharStream.good_write msg.storage bs

theorem writeAll_nil {msg : MessageStream} (hg : msg.good = true) : writeAll msg [] = msg := by
  rw [writeAll, CharStream.write_nil hg]

theorem writeAll_append (msg : MessageStream) (as bs : Bytes) :
    writeAll (writeAll msg as) bs = writeAll msg (as ++ bs) := by
  simp only [writeAll, CharStream.write_append]

theorem Drafts.congr {p : Put} {d e : Draft UInt8} (hp : Drafts p d) (h : d = e) : Drafts p e :=
  h ▸ hp

theorem drafts_emits {p : Put} {bs : Bytes} (hp : Emits p bs) : Drafts p (.whole bs) where
  returns := fun _ msg _ => hp msg
  throws := fun h => by simp at h

theorem drafts_pure : Drafts (pure ()) (.whole []) where
  returns := by
    intro _ msg hg
    show EStateM.Result.ok () msg = _
    rw [Draft.whole, writeAll_nil hg]
  throws := fun h => by simp at h

theorem drafts_throw (ex : Exception) : Drafts (throw ex) .refused where
  returns := fun h => by simp [Draft.refused] at h
  throws := by
    intro _ msg hg
    refine ⟨ex, ?_⟩
    show EStateM.Result.error ex msg = _
    rw [Draft.refused, writeAll_nil hg]

/-- The first encoder to throw decides what has been put. -/
theorem Drafts.seq {p q : Put} {d e : Draft UInt8} (hp : Drafts p d) (hq : Drafts q e) :
    Drafts (p >>= fun _ => q) (d.seq e) := by
  by_cases hd : d.complete = true
  · have hseq : d.seq e = ⟨d.written ++ e.written, e.complete⟩ := by rw [Draft.seq, if_pos hd]
    rw [hseq]
    constructor
    · intro he msg hg
      have hsecond := hq.returns he (writeAll msg d.written) ((good_writeAll msg _).trans hg)
      show EStateM.bind p (fun _ => q) msg = _
      simp only [EStateM.bind, hp.returns hd msg hg, hsecond, writeAll_append]
    · intro he msg hg
      obtain ⟨ex, hsecond⟩ :=
        hq.throws he (writeAll msg d.written) ((good_writeAll msg _).trans hg)
      refine ⟨ex, ?_⟩
      show EStateM.bind p (fun _ => q) msg = _
      simp only [EStateM.bind, hp.returns hd msg hg, hsecond, writeAll_append]
  · have hstop : d.complete = false := by simpa using hd
    have hseq : d.seq e = d := by rw [Draft.seq, if_neg hd]
    rw [hseq]
    constructor
    · exact fun h => absurd h hd
    · intro _ msg hg
      obtain ⟨ex, hfirst⟩ := hp.throws hstop msg hg
      refine ⟨ex, ?_⟩
      show EStateM.bind p (fun _ => q) msg = _
      simp only [EStateM.bind, hfirst]

/-- A length that is compared with its own conversion before anything is put. -/
theorem Drafts.checked {p : Put} {d : Draft UInt8} {P Q : Prop} [Decidable P] [Decidable Q]
    (ex : Exception) (hp : Drafts p d) (h : P ↔ ¬ Q) :
    Drafts (if Q then throw ex else p) (.check P d) := by
  by_cases hQ : Q
  · rw [if_pos hQ, Draft.check, if_neg (fun hP => h.mp hP hQ)]
    exact drafts_throw ex
  · rw [if_neg hQ, Draft.check, if_pos (h.mpr hQ)]
    exact hp

theorem drafts_elements {p : α → Put} {d : α → Draft UInt8} (hp : ∀ a, Drafts (p a) (d a))
    (as : List α) : Drafts (encodeElements p as) (.all (as.map d)) := by
  induction as with
  | nil => exact drafts_pure
  | cons a as ih => exact (hp a).seq ih

theorem fits16_iff (n : Nat) : n ≤ 65535 ↔ ¬ (UInt16.ofNat n).toNat ≠ n := by
  rw [not_not, ofNat16_toNat]
  omega

theorem fits32_iff (n : Nat) : n ≤ 4294967295 ↔ ¬ (UInt32.ofNat n).toNat ≠ n := by
  rw [not_not, ofNat32_toNat]
  omega

/-- A converted length is put as the length itself, as far as it fits. -/
theorem drafts_ofNat16 (n : Nat) : Drafts (encodeUInt16 (UInt16.ofNat n)) (.whole (le 2 n)) := by
  rw [← le_mod 2 n]
  exact drafts_emits (emits_uint16 (UInt16.ofNat n))

theorem drafts_ofNat32 (n : Nat) : Drafts (encodeUInt32 (UInt32.ofNat n)) (.whole (le 4 n)) := by
  rw [← le_mod 4 n]
  exact drafts_emits (emits_uint32 (UInt32.ofNat n))

theorem drafts_bytes (s : Bytes) : Drafts (encodeElements encodeUInt8 s) (.whole s) := by
  refine (drafts_elements (fun b => drafts_emits (emits_put b)) s).congr ?_
  rw [all_whole, List.flatMap_singleton']

/-- A string is put behind its length, unless that is over the limit. -/
theorem drafts_string (s : Bytes) : Drafts (encodeString s) (textDraft s) :=
  .checked _ ((drafts_ofNat16 s.length).seq (drafts_bytes s)) (fits16_iff s.length)

theorem drafts_vector {p : α → Put} {d : α → Draft UInt8} (hp : ∀ a, Drafts (p a) (d a))
    (as : List α) : Drafts (encodeVector p as) (counted as.length (as.map d)) :=
  .checked _ ((drafts_ofNat16 as.length).seq (drafts_elements hp as)) (fits16_iff as.length)

theorem drafts_hasData (m : HasDataStorage) : Drafts m.encode (fieldDraft (.data m.data)) :=
  .checked _ ((drafts_ofNat32 m.data.length).seq (drafts_bytes m.data))
    (fits32_iff m.data.length)

theorem drafts_integer (v : Value) : Drafts (encodeValue v) (fieldDraft (.integer v)) :=
  drafts_emits (emits_value v)

theorem drafts_qid (q : Qid) : Drafts q.encode (.whole (qidBytes q)) := by
  refine ((drafts_integer (.u8 q.type)).seq ((drafts_integer (.u32 q.version)).seq
    (drafts_integer (.u64 q.path)))).congr ?_
  simp [fieldDraft, integerBytes, whole_seq_whole, qidBytes, le_one]

/-! ## Stats -/

theorem str_writeAll_new (indeterminate : Nat → UInt8) (bs : Bytes) :
    (writeAll (.new indeterminate) bs).str = bs := by
  show (CharStream.StringStream.write .empty bs).str = bs
  rw [CharStream.write_of_writable CharStream.writable_empty]
  rfl

/-- What an encoder puts on a stream of its own is there for the next one, and
    the stream outside sees nothing of it. -/
theorem drafts_inner {p : Put} {d : Draft UInt8} (hp : Drafts p d) {f : Bytes → Put}
    {e : Bytes → Draft UInt8} (hf : ∀ bs, Drafts (f bs) (e bs)) :
    Drafts (innerMessage p >>= f) (.check (d.complete = true) (e d.written)) := by
  by_cases hd : d.complete = true
  · rw [Draft.check, if_pos hd]
    have hrun : ∀ msg, (innerMessage p >>= f) msg = f d.written msg := by
      intro msg
      have hinner := hp.returns hd (.new msg.indeterminate) rfl
      show EStateM.bind (innerMessage p) f msg = _
      simp only [EStateM.bind, innerMessage, hinner, str_writeAll_new]
    constructor
    · intro h msg hg
      rw [hrun]
      exact (hf d.written).returns h msg hg
    · intro h msg hg
      rw [hrun]
      exact (hf d.written).throws h msg hg
  · rw [Draft.check, if_neg hd]
    constructor
    · intro h
      simp [Draft.refused] at h
    · intro _ msg hg
      obtain ⟨ex, hinner⟩ := hp.throws (by simpa using hd) (.new msg.indeterminate) rfl
      refine ⟨ex, ?_⟩
      show EStateM.bind (innerMessage p) f msg = _
      simp only [EStateM.bind, innerMessage, hinner]
      rw [Draft.refused, writeAll_nil hg]

/-- The members of a stat, up to the first string over its limit. -/
def members (m : Stat) : Draft UInt8 := .all ((memberFields m).map fieldDraft)

/-- The members of a stat are put when their strings are short enough. -/
theorem complete_members (m : Stat) : (members m).complete = true ↔
    m.name.length ≤ 65535 ∧ m.uid.length ≤ 65535 ∧ m.gid.length ≤ 65535
      ∧ m.muid.length ≤ 65535 := by
  simp [members, memberFields, fieldDraft, complete_all, textDraft]

theorem members_eq {m : Stat} (h : (members m).complete = true) :
    members m = .whole (statMembersBytes m) := by
  obtain ⟨hname, huid, hgid, hmuid⟩ := (complete_members m).mp h
  simp [members, memberFields, fieldDraft, integerBytes, textDraft, Draft.check, hname, huid, hgid,
    hmuid, Draft.all, whole_seq_whole, statMembersBytes]

/-- A stat stops the encoder in one piece: whatever of it is over a limit, the
    stream outside has got nothing of it. -/
theorem drafts_stat {m : Stat} (hm : Drafts m.encodeInner (members m)) :
    Drafts m.encode (fieldDraft (.stat m)) := by
  refine (drafts_inner hm drafts_string).congr ?_
  show _ = Draft.check (textLength m ≤ 65488) (.whole (statBytes m))
  have hlen := length_statMembersBytes m
  by_cases hc : (members m).complete = true
  · rw [Draft.check, if_pos hc, members_eq hc, textDraft, Draft.whole, hlen]
    by_cases hfit : textLength m ≤ 65488
    · rw [Draft.check, Draft.check, if_pos hfit, if_pos (by omega)]
      rfl
    · rw [Draft.check, Draft.check, if_neg hfit, if_neg (by omega)]
  · have hfit : ¬ textLength m ≤ 65488 := by
      intro hfit
      rw [textLength] at hfit
      exact hc ((complete_members m).mpr (by omega))
    rw [Draft.check, Draft.check, if_neg hc, if_neg hfit]

/-! ## Messages -/

/-- A codec of one field. -/
theorem Drafts.field {p : Put} {f : Field} (hp : Drafts p (fieldDraft f)) :
    Drafts p (.all ([f].map fieldDraft)) :=
  hp.congr (seq_whole_nil _).symm

/-- **FIELD BY FIELD**: whatever is made of fields puts one after the other, up to
    the first over its limit. -/
theorem drafts_of_consists {stats : Prop} {c : Codec α} {f : α → List Field}
    (h : Consists stats c f) : ∀ a, Drafts (c.put a) (.all ((f a).map fieldDraft)) := by
  induction h with
  | uint8 => exact fun v => (drafts_integer (.u8 v)).field
  | uint16 => exact fun v => (drafts_integer (.u16 v)).field
  | uint32 => exact fun v => (drafts_integer (.u32 v)).field
  | uint64 => exact fun v => (drafts_integer (.u64 v)).field
  | qid => exact fun q => (drafts_qid q).field
  | string => exact fun s => (drafts_string s).field
  | names => exact fun l => (drafts_vector drafts_string l).field
  | qids => exact fun l => (drafts_vector drafts_qid l).field
  | data => exact fun m => (drafts_hasData m).field
  | stat _ _ ih => exact fun m => (drafts_stat (ih m)).field
  | pair _ _ ihc ihd =>
      exact fun p => ((ihc p.1).seq (ihd p.2)).congr (by rw [List.map_append, all_append])
  | via _ ih => exact fun a => ih _

theorem draft_header (h : MessageHeader) :
    Draft.all ((headerFields h).map fieldDraft) = .whole (headerBytes h) := by
  simp [headerFields, fieldDraft, integerBytes, Draft.all, whole_seq_whole, headerBytes, le_one]

/-- **THE ENCODERS FOLLOW THE DRAFTS**: each alternative puts what its draft
    says, and that of an undefined message throws at once. -/
theorem drafts_held (v : Variant dir) : Drafts (encodeVariant v) (draft v) := by
  obtain ⟨kind, held⟩ := v
  by_cases hk : kind = .Undefined
  · subst hk
    cases dir <;> exact drafts_throw _
  · rw [draft, Draft.check, if_pos hk]
    show Drafts (encodeHeld dir kind held) _
    rw [encodeHeld_eq hk]
    refine (drafts_of_consists (consists_codec hk) held).congr ?_
    rw [List.map_append, all_append, draft_header, body]

/-! ## Which messages a stream takes -/

/-- The alternative an interaction holds, on whichever side. -/
def visit {β : Type} (f : {dir : MessageDirection} → Variant dir → β) : Interaction → β
  | .response r => f r
  | .request r  => f r

/-- **WHAT AN ENCODER PUTS** of an interaction is its draft. -/
theorem drafts_interaction (m : Interaction) : Drafts (encodeInteraction m) (visit draft m) := by
  cases m with
  | response r => exact drafts_held r
  | request r => exact drafts_held r

/-- Encodable are the interactions that are put to their end. -/
theorem complete_interaction (m : Interaction) :
    (visit draft m).complete = true ↔ visit Encodable m := by
  cases m with
  | response r => exact complete_draftOf r
  | request r => exact complete_draftOf r

/-- They take the size that was computed. -/
theorem length_interaction {m : Interaction} (h : visit Encodable m) :
    (visit draft m).written.length = visit encodedSize m := by
  cases m with
  | response r => exact length_draftOf h
  | request r => exact length_draftOf h

/-- Bytes are put over the contents, from the put position. -/
theorem str_writeAll {msg : MessageStream} (hg : msg.good = true) (bs : Bytes) :
    (writeAll msg bs).str = CharStream.overwrite msg.str msg.storage.ppos bs := by
  have hgood : msg.storage.good = true := hg
  simp only [writeAll, MessageStream.str, CharStream.StringStream.str,
    CharStream.StringStream.write, hgood, if_true]

/-- **WHAT IS ENCODED**: on a good stream exactly the encodable messages get
    through, and each lands at the put position. -/
theorem encode_ok_iff (m : Interaction) {msg : MessageStream} (hg : msg.good = true)
    (msg' : MessageStream) :
    encodeInteraction m msg = .ok () msg'
      ↔ visit Encodable m ∧ msg' = writeAll msg (visit draft m).written := by
  have hd := drafts_interaction m
  by_cases hm : visit Encodable m
  · rw [hd.returns ((complete_interaction m).mpr hm) msg hg, EStateM.Result.ok.injEq]
    simp [hm, eq_comm]
  · have hc : (visit draft m).complete = false := by
      simpa using fun h => hm ((complete_interaction m).mp h)
    obtain ⟨ex, hthrow⟩ := hd.throws hc msg hg
    rw [hthrow]
    simp [hm]

/-- Bytes go behind all the others exactly when the put position is there. -/
theorem overwrite_appends_iff {buf : Bytes} {p : Nat} (hp : p ≤ buf.length) {bs : Bytes}
    (hbs : bs ≠ []) :
    (∃ cs, CharStream.overwrite buf p bs = buf ++ cs ∧ cs.length = bs.length)
      ↔ p = buf.length := by
  have hpos := List.length_pos_iff.mpr hbs
  constructor
  · rintro ⟨cs, hcs, hlen⟩
    have h := congrArg List.length hcs
    rw [CharStream.length_overwrite hp, List.length_append] at h
    omega
  · rintro rfl
    exact ⟨bs, CharStream.overwrite_length buf bs, rfl⟩

theorem draft_ne_nil {m : Interaction} (h : visit Encodable m) :
    (visit draft m).written ≠ [] := by
  have hlen := length_interaction h
  intro hnil
  rw [hnil] at hlen
  cases m <;> exact absurd hlen (by simp [visit, encodedSize]; omega)

/-- **WHEN ENCODING IS EXACT**: on a good stream, the messages encoded are the
    encodable ones and each appends as many bytes as it takes, exactly when the
    message is not encodable or the put position is at the end. -/
theorem encode_exact_iff (m : Interaction) {msg : MessageStream} (hg : msg.good = true) :
    (((∃ msg', encodeInteraction m msg = .ok () msg') ↔ visit Encodable m)
        ∧ ∀ msg', encodeInteraction m msg = .ok () msg' →
          ∃ bs, msg'.str = msg.str ++ bs ∧ bs.length = visit encodedSize m)
      ↔ msg.storage.ppos = msg.str.length ∨ ¬ visit Encodable m := by
  have hreturns : (∃ msg', encodeInteraction m msg = .ok () msg') ↔ visit Encodable m := by
    simp [encode_ok_iff m hg]
  rw [and_iff_right hreturns]
  by_cases hm : visit Encodable m
  · have happends : (∃ bs, (writeAll msg (visit draft m).written).str = msg.str ++ bs
          ∧ bs.length = visit encodedSize m) ↔ msg.storage.ppos = msg.str.length := by
      rw [str_writeAll hg, ← length_interaction hm]
      exact overwrite_appends_iff msg.storage.ppos_le (draft_ne_nil hm)
    rw [← happends]
    simp [encode_ok_iff m hg, hm]
  · simp [encode_ok_iff m hg, hm]

/-- A new stream takes a flush request, and grows by five bytes. -/
theorem encode_exact_flush :
    let m := Interaction.request ⟨.Flush, ({ oldtag := 7 } : FlushRequest)⟩
    let msg := MessageStream.new fun _ => 0
    ((∃ msg', encodeInteraction m msg = .ok () msg') ↔ visit Encodable m)
      ∧ ∀ msg', encodeInteraction m msg = .ok () msg' →
        ∃ bs, msg'.str = msg.str ++ bs ∧ bs.length = visit encodedSize m :=
  (encode_exact_iff _ rfl).mpr (Or.inl rfl)

/-- Encoded into a stream that has been given its contents with `str`, a flush
    request overwrites them. -/
theorem encode_flush_overwrites :
    let m := Interaction.request ⟨.Flush, ({ oldtag := 7 } : FlushRequest)⟩
    let msg := (MessageStream.new fun _ => 0).setStr [97, 98, 99]
    msg.good = true ∧ ∃ msg', encodeInteraction m msg = .ok () msg'
      ∧ msg'.str = [108, 255, 255, 7, 0]
      ∧ ¬ ∃ bs, msg'.str = msg.str ++ bs := by
  refine ⟨rfl, _, rfl, rfl, ?_⟩
  rintro ⟨bs, hbs⟩
  have hfirst : (108 : UInt8) = 97 := congrArg (fun s : Bytes => s.headD 0) hbs
  exact absurd hfirst (by decide)

/-! ## What a refused message leaves behind -/

/-- The alternative that no encoder knows. -/
def Undefined (v : Variant dir) : Prop := v.kind = .Undefined

/-- From the put position on the stream already reads what is put of the
    message in front of the field over its limit. -/
def AlreadyThere (m : Interaction) (msg : MessageStream) : Prop :=
  (visit draft m).written <+: msg.str.drop msg.storage.ppos

/-- A refused message leaves its draft in the stream. -/
theorem encode_error {m : Interaction} {msg msg' : MessageStream} {ex : Exception}
    (hg : msg.good = true) (h : encodeInteraction m msg = .error ex msg') :
    msg' = writeAll msg (visit draft m).written := by
  have hd := drafts_interaction m
  by_cases hc : (visit draft m).complete = true
  · rw [hd.returns hc msg hg] at h
    cases h
  · obtain ⟨ex', hthrow⟩ := hd.throws (by simpa using hc) msg hg
    rw [hthrow] at h
    cases h
    rfl

/-- A message that is stopped leaves the contents as they were exactly when
    what has been put by then stands there already. -/
theorem unchanged_iff (m : Interaction) {msg : MessageStream} (hg : msg.good = true) :
    (∀ ex msg', encodeInteraction m msg = .error ex msg' → msg'.str = msg.str)
      ↔ visit Encodable m ∨ AlreadyThere m msg := by
  have hsame : (writeAll msg (visit draft m).written).str = msg.str ↔ AlreadyThere m msg := by
    rw [str_writeAll hg]
    exact CharStream.overwrite_eq_self_iff msg.storage.ppos_le _
  constructor
  · intro h
    by_cases hc : (visit draft m).complete = true
    · exact Or.inl ((complete_interaction m).mp hc)
    · obtain ⟨ex, hthrow⟩ := (drafts_interaction m).throws (by simpa using hc) msg hg
      exact Or.inr (hsame.mp (h ex _ hthrow))
  · rintro (hm | hthere) ex msg' herror
    · rw [(drafts_interaction m).returns ((complete_interaction m).mpr hm) msg hg] at herror
      cases herror
    · rw [encode_error hg herror]
      exact hsame.mpr hthere

/-- Nothing is put of the undefined messages, and of no others. -/
theorem draft_eq_nil_iff (m : Interaction) : (visit draft m).written = [] ↔ visit Undefined m := by
  have hput : ∀ {dir} (v : Variant dir), (draft v).written = [] ↔ v.kind = .Undefined := by
    intro dir v
    constructor
    · intro hv
      by_contra hk
      have hlen := congrArg List.length hv
      rw [draft, written_check hk, body, written_seq (complete_whole _), List.length_append]
        at hlen
      simp [Draft.whole, headerBytes] at hlen
    · intro hk
      rw [draft, Draft.check, if_neg (not_not_intro hk)]
      rfl
  cases m with
  | response r => exact hput r
  | request r => exact hput r

/-- **ALL OR NOTHING**: an encoder that throws on a good stream leaves the
    contents as they were exactly when the message is an undefined one (or
    encodable, and nothing is thrown), or what is put before the throw stands
    there already. -/
theorem failed_encode_iff (m : Interaction) {msg : MessageStream} (hg : msg.good = true) :
    (∀ ex msg', encodeInteraction m msg = .error ex msg' → msg'.str = msg.str)
      ↔ visit Undefined m ∨ visit Encodable m ∨ AlreadyThere m msg := by
  rw [unchanged_iff m hg]
  constructor
  · exact Or.inr
  · rintro (hundef | h)
    · refine Or.inr ?_
      rw [AlreadyThere, (draft_eq_nil_iff m).mpr hundef]
      exact List.nil_prefix
    · exact h

/-- An error message of one character more than a string may have. -/
def longError : Interaction :=
  .response ⟨.Error, ({ ename := List.replicate 65536 97 } : ErrorResponse)⟩

/-- It is refused behind its header. -/
theorem draft_longError : visit draft longError = ⟨[107, 255, 255], false⟩ := by
  have hrefused : textDraft (List.replicate 65536 97) = .refused := by
    rw [textDraft, Draft.check, if_neg (by rw [List.length_replicate]; decide)]
  show (Draft.whole [107, 255, 255]).seq
    ((textDraft (List.replicate 65536 97)).seq (.whole [])) = _
  rw [hrefused]
  rfl

/-- Over a stream that holds this header at its put position, nothing changes. -/
theorem failed_encode_same_header :
    let msg := (MessageStream.new fun _ => 0).setStr [107, 255, 255, 5]
    (∃ ex msg', encodeInteraction longError msg = .error ex msg')
      ∧ ∀ ex msg', encodeInteraction longError msg = .error ex msg' → msg'.str = msg.str := by
  intro msg
  have hthere : AlreadyThere longError msg := by
    rw [AlreadyThere, draft_longError]
    exact ⟨[5], rfl⟩
  obtain ⟨ex, hthrow⟩ :=
    (drafts_interaction longError).throws (by rw [draft_longError]) msg rfl
  exact ⟨⟨ex, _, hthrow⟩, (failed_encode_iff longError rfl).mpr (Or.inr (Or.inr hthere))⟩

/-- On an empty stream the header is left behind. -/
theorem failed_encode_header_left :
    let m := Interaction.response ⟨.Error, ({ ename := List.replicate 65536 97 } : ErrorResponse)⟩
    let msg := MessageStream.new fun _ => 0
    msg.good = true ∧ msg.str = []
      ∧ ∃ ex msg', encodeInteraction m msg = .error ex msg' ∧ msg'.str = [107, 255, 255] := by
  intro m msg
  have hdraft : visit draft m = ⟨[107, 255, 255], false⟩ := draft_longError
  obtain ⟨ex, hthrow⟩ := (drafts_interaction m).throws (by rw [hdraft]) msg rfl
  refine ⟨rfl, rfl, ex, _, hthrow, ?_⟩
  rw [hdraft]
  rfl

end KzrEncodable
