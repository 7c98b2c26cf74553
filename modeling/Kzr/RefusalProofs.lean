import Kzr.EncodableProofs
import Kzr.ReportProofs

/-! # What an encoder says when it refuses

    The encoder of a message is that of its header and those of its fields, one
    after the other, so it throws what the first field over its limit throws.
    `refusal` is that exception, read off the message; the stream has no say in
    it, whatever its flags and positions are.

    What is put in front of the exception is what the draft of the message says.
    A stream whose flags are up drops it, and the encoder goes on regardless. -/

namespace KzrRefusal

open Drafting Reporting WireFormat LittleEndian KzrOperation KzrMessageStream KzrPrimitive
open KzrIntegerCodec KzrCodec KzrMessage KzrInteraction KzrInteractionCodec KzrQueue KzrEncodable
open KzrField (Field Consists fields headerFields memberFields consists_codec)
open KzrNineP (str qidBytes statMembersBytes statBytes headerBytes)

variable {α : Type} {dir : MessageDirection} {kind : ConceptualOperation}

/-! ## The exceptions -/

/-- The exception of a string, with its length. -/
def longString (n : Nat) : Exception :=
  ⟨"Attempted to encode a string of " ++ toString n
    ++ " characters when " ++ toString 65535 ++ " is the maximum allowed!"⟩

/-- The exception of a vector, with its length. -/
def longVector (n : Nat) : Exception :=
  ⟨"Attempted to encode a std::vector<T> of " ++ toString n
    ++ " elements when " ++ toString 65535 ++ " is the maximum allowed!"⟩

/-- The exception of a data block. -/
def longData : Exception := ⟨"data storage too large for transmission"⟩

/-- The exception of an undefined message. -/
def undefinedMessage : MessageDirection → Exception
  | .Request  => ⟨"Undefined request!"⟩
  | .Response => ⟨"Undefined response!"⟩

/-- There is no reason up to the limit. -/
def exceeding (limit n : Nat) (ex : Exception) : Option Exception :=
  if n ≤ limit then none else some ex

/-- Why a string is refused. -/
def stringRefusal (s : Bytes) : Option Exception := exceeding 65535 s.length (longString s.length)

/-- Why a vector of `n` elements is refused before any of them is looked at. -/
def vectorRefusal (n : Nat) : Option Exception := exceeding 65535 n (longVector n)

/-- Why a field is refused: a list for its length before an element for its own,
    a stat for one of its strings before all its members together. -/
def fieldRefusal : Field → Option Exception
  | .integer _ => none
  | .qid _     => none
  | .text s    => stringRefusal s
  | .names l   => (vectorRefusal l.length).or (l.findSome? stringRefusal)
  | .qids l    => vectorRefusal l.length
  | .data s    => exceeding 4294967295 s.length longData
  | .stat m    =>
      ([m.name, m.uid, m.gid, m.muid].findSome? stringRefusal).or
        (exceeding 65488 (textLength m) (longString (47 + textLength m)))

/-- Why a message is refused. -/
def refusal (v : Variant dir) : Option Exception :=
  if v.kind = .Undefined then some (undefinedMessage dir)
  else (fields dir v.kind v.held).findSome? fieldRefusal

/-- No reason is given up to the limit, and one beyond it. -/
theorem exceeding_eq_none {limit n : Nat} {ex : Exception} :
    exceeding limit n ex = none ↔ n ≤ limit := by
  simp [exceeding]

/-! ## Encoders that follow a report -/

/-- Put `bs`; when there is nothing to put, the flags are not looked at either. -/
def puts (msg : MessageStream) (bs : Bytes) : MessageStream :=
  if bs = [] then msg else writeAll msg bs

/-- How an encoder ends that does what the report says. -/
def outcome (r : Report UInt8 Exception) (msg : MessageStream) :
    EStateM.Result Exception MessageStream Unit :=
  match r.stopped with
  | none    => .ok () (puts msg r.written)
  | some ex => .error ex (puts msg r.written)

/-- On every stream, whatever its state, `p` does what the report says. -/
def Reports (p : Put) (r : Report UInt8 Exception) : Prop := ∀ msg, p msg = outcome r msg

theorem puts_nil (msg : MessageStream) : puts msg [] = msg := rfl

/-- Something to put is put as one string. -/
theorem puts_of_ne_nil {bs : Bytes} (h : bs ≠ []) (msg : MessageStream) :
    puts msg bs = writeAll msg bs := if_neg h

/-- What is put in two parts is put as one. -/
theorem puts_puts (msg : MessageStream) (as bs : Bytes) :
    puts (puts msg as) bs = puts msg (as ++ bs) := by
  by_cases ha : as = []
  · rw [ha, puts_nil, List.nil_append]
  · by_cases hb : bs = []
    · rw [hb, puts_nil, List.append_nil]
    · rw [puts_of_ne_nil ha, puts_of_ne_nil hb, writeAll_append,
        puts_of_ne_nil (List.append_ne_nil_of_left_ne_nil ha bs)]

theorem Reports.congr {p : Put} {r t : Report UInt8 Exception} (hp : Reports p r) (h : r = t) :
    Reports p t := h ▸ hp

/-- An encoder that only puts bytes reports them. -/
theorem reports_emits {p : Put} {bs : Bytes} (hp : Emits p bs) (hbs : bs ≠ []) :
    Reports p (.whole bs) := by
  intro msg
  rw [hp msg, outcome, Report.whole]
  exact congrArg _ (puts_of_ne_nil hbs msg).symm

theorem reports_pure : Reports (pure ()) (.whole []) := fun _ => rfl

/-- An exception is reported with nothing in front. -/
theorem reports_throw (ex : Exception) : Reports (throw ex) (.refused ex) := fun _ => rfl

/-- The first encoder to throw decides. -/
theorem Reports.seq {p q : Put} {r t : Report UInt8 Exception} (hp : Reports p r)
    (hq : Reports q t) : Reports (p >>= fun _ => q) (r.seq t) := by
  intro msg
  obtain ⟨cs, reason⟩ := r
  have hfirst := hp msg
  show EStateM.bind p (fun _ => q) msg = _
  cases reason with
  | some ex =>
      simp only [EStateM.bind, hfirst]
      rfl
  | none =>
      simp only [EStateM.bind, hfirst, outcome, Report.seq]
      rw [hq (puts msg cs), outcome, puts_puts]

/-- A check in front of an encoder is a check in front of its report. -/
theorem Reports.checked {p : Put} {r : Report UInt8 Exception} {Q : Prop} [Decidable Q]
    {ex : Exception} {reason : Option Exception} (hp : Reports p r)
    (h : reason = if Q then some ex else none) :
    Reports (if Q then throw ex else p) (.check reason r) := by
  by_cases hQ : Q
  · rw [h, if_pos hQ, if_pos hQ]
    exact reports_throw ex
  · rw [h, if_neg hQ, if_neg hQ]
    exact hp

/-- The loop over the elements reports them one by one. -/
theorem reports_elements {p : α → Put} {r : α → Report UInt8 Exception}
    (hp : ∀ a, Reports (p a) (r a)) (as : List α) :
    Reports (encodeElements p as) (.all (as.map r)) := by
  induction as with
  | nil => exact reports_pure
  | cons a as ih => exact (hp a).seq ih

/-! ## Fields -/

/-- What is put of a string. -/
def textReport (s : Bytes) : Report UInt8 Exception := .check (stringRefusal s) (.whole (str s))

/-- What is put of a vector with these reports of its elements. -/
def countedReport (n : Nat) (rs : List (Report UInt8 Exception)) : Report UInt8 Exception :=
  .check (vectorRefusal n) ((Report.whole (le 2 n)).seq (.all rs))

/-- What is put of a field, and why it is refused. -/
def fieldReport : Field → Report UInt8 Exception
  | .integer v => .whole (integerBytes v)
  | .qid q     => .whole (qidBytes q)
  | .text s    => textReport s
  | .names l   => countedReport l.length (l.map textReport)
  | .qids l    => countedReport l.length (l.map fun q => .whole (qidBytes q))
  | .data s    => .check (fieldRefusal (.data s)) (.whole (le 4 s.length ++ s))
  | .stat m    => .check (fieldRefusal (.stat m)) (.whole (statBytes m))

/-- A wrapped length differs from the length it came from beyond the limit. -/
theorem exceeding_eq_ite16 (n : Nat) (ex : Exception) :
    exceeding 65535 n ex = if (UInt16.ofNat n).toNat ≠ n then some ex else none := by
  by_cases h : n ≤ 65535
  · rw [exceeding, if_pos h, if_neg ((fits16_iff n).mp h)]
  · rw [exceeding, if_neg h, if_pos (not_not.mp fun hn => h ((fits16_iff n).mpr hn))]

/-- The same of a length cut to 32 bits. -/
theorem exceeding_eq_ite32 (n : Nat) (ex : Exception) :
    exceeding 4294967295 n ex = if (UInt32.ofNat n).toNat ≠ n then some ex else none := by
  by_cases h : n ≤ 4294967295
  · rw [exceeding, if_pos h, if_neg ((fits32_iff n).mp h)]
  · rw [exceeding, if_neg h, if_pos (not_not.mp fun hn => h ((fits32_iff n).mpr hn))]

theorem le_ne_nil (k n : Nat) : le (k + 1) n ≠ [] := List.cons_ne_nil _ _

/-- A length is put, or what is left of it in 16 bits. -/
theorem reports_ofNat16 (n : Nat) :
    Reports (encodeUInt16 (UInt16.ofNat n)) (.whole (le 2 n)) := by
  rw [← le_mod 2 n]
  exact reports_emits (emits_uint16 (UInt16.ofNat n)) (le_ne_nil 1 _)

theorem reports_ofNat32 (n : Nat) :
    Reports (encodeUInt32 (UInt32.ofNat n)) (.whole (le 4 n)) := by
  rw [← le_mod 4 n]
  exact reports_emits (emits_uint32 (UInt32.ofNat n)) (le_ne_nil 3 _)

/-- Characters reported one by one are the string. -/
theorem all_whole (cs : Bytes) :
    Report.all (cs.map fun c => (Report.whole [c] : Report UInt8 Exception)) = .whole cs := by
  induction cs with
  | nil => rfl
  | cons c cs ih =>
      rw [List.map_cons, Report.all, ih]
      rfl

theorem reports_bytes (s : Bytes) : Reports (encodeElements encodeUInt8 s) (.whole s) :=
  (reports_elements (fun c => reports_emits (emits_put c) (List.cons_ne_nil c [])) s).congr
    (all_whole s)

/-- A string is refused for its length and otherwise put behind it. -/
theorem reports_string (s : Bytes) : Reports (encodeString s) (textReport s) :=
  ((reports_ofNat16 s.length).seq (reports_bytes s)).checked
    (exceeding_eq_ite16 s.length (longString s.length))

/-- A vector is refused for its length, then each element has its own say. -/
theorem reports_vector {p : α → Put} {r : α → Report UInt8 Exception}
    (hp : ∀ a, Reports (p a) (r a)) (as : List α) :
    Reports (encodeVector p as) (countedReport as.length (as.map r)) :=
  ((reports_ofNat16 as.length).seq (reports_elements hp as)).checked
    (exceeding_eq_ite16 as.length (longVector as.length))

/-- A data block is refused for its length and otherwise put behind it. -/
theorem reports_data (s : Bytes) :
    Reports (⟨s⟩ : HasDataStorage).encode (fieldReport (.data s)) :=
  ((reports_ofNat32 s.length).seq (reports_bytes s)).checked
    (exceeding_eq_ite32 s.length longData)

theorem reports_integer (v : Value) : Reports (encodeValue v) (fieldReport (.integer v)) :=
  reports_emits (emits_value v) (integerBytes_ne_nil v)

/-- Qids are never refused. -/
theorem reports_qid (q : Qid) : Reports q.encode (.whole (qidBytes q)) := by
  refine ((reports_integer (.u8 q.type)).seq ((reports_integer (.u32 q.version)).seq
    (reports_integer (.u64 q.path)))).congr ?_
  simp [fieldReport, integerBytes, Report.seq, Report.whole, qidBytes, le_one]

/-! ## Stats -/

/-- The members of a stat, with the reasons for its strings. -/
def membersReport (m : Stat) : Report UInt8 Exception := .all ((memberFields m).map fieldReport)

/-- A string is stopped by its length only. -/
theorem stopped_textReport (s : Bytes) : (textReport s).stopped = stringRefusal s := by
  rw [textReport, stopped_check]
  exact Option.or_none

theorem draft_textReport (s : Bytes) : (textReport s).draft = textDraft s :=
  draft_check exceeding_eq_none _

/-- The members of a stat are stopped by their first long string. -/
theorem stopped_membersReport (m : Stat) :
    (membersReport m).stopped = [m.name, m.uid, m.gid, m.muid].findSome? stringRefusal := by
  simp only [membersReport, memberFields, List.map_cons, List.map_nil, fieldReport, Report.all,
    stopped_seq, stopped_textReport, List.findSome?_cons, List.findSome?_nil, Report.whole,
    Option.none_or]
  cases stringRefusal m.name <;> cases stringRefusal m.uid <;> cases stringRefusal m.gid <;>
    cases stringRefusal m.muid <;> rfl

/-- Without the reasons it is the draft of the members. -/
theorem draft_membersReport (m : Stat) : (membersReport m).draft = members m := by
  simp only [membersReport, memberFields, draft_all, List.map_cons, List.map_nil, fieldReport,
    draft_whole, draft_textReport]
  rfl

/-- Members that are not stopped are put whole. -/
theorem written_membersReport {m : Stat} (h : (membersReport m).stopped = none) :
    (membersReport m).written = statMembersBytes m := by
  have hdraft := draft_membersReport m
  have hcomplete : (members m).complete = true := by
    rw [← hdraft, Report.draft, h]
    rfl
  rw [members_eq hcomplete] at hdraft
  exact congrArg Draft.written hdraft

/-- An encoder on a stream of its own: the stream outside, whatever its state, sees
    the reason and nothing else. -/
theorem reports_inner {p : Put} {r : Report UInt8 Exception} (hp : Reports p r)
    {f : Bytes → Put} {t : Bytes → Report UInt8 Exception} (hf : ∀ bs, Reports (f bs) (t bs)) :
    Reports (innerMessage p >>= f) (.check r.stopped (t r.written)) := by
  intro msg
  obtain ⟨cs, reason⟩ := r
  have hinner := hp (.new msg.indeterminate)
  show EStateM.bind (innerMessage p) f msg = _
  cases reason with
  | some ex =>
      simp only [EStateM.bind, innerMessage, hinner, outcome]
      rfl
  | none =>
      have hstr : (puts (.new msg.indeterminate) cs).str = cs := by
        by_cases hcs : cs = []
        · rw [hcs]
          rfl
        · rw [puts_of_ne_nil hcs, str_writeAll_new]
      simp only [EStateM.bind, innerMessage, hinner, outcome, hstr]
      exact hf cs msg

/-- A stat is refused for a string of its own or for being too long as a string. -/
theorem reports_stat {m : Stat} (hm : Reports m.encodeInner (membersReport m)) :
    Reports m.encode (fieldReport (.stat m)) := by
  refine (reports_inner hm reports_string).congr ?_
  have hlen := length_statMembersBytes m
  have hreason : fieldRefusal (.stat m) = (membersReport m).stopped.or
      (exceeding 65488 (textLength m) (longString (47 + textLength m))) := by
    rw [stopped_membersReport]
    rfl
  rw [fieldReport, hreason]
  cases hstop : (membersReport m).stopped with
  | some ex => rfl
  | none =>
      have hover : stringRefusal (statMembersBytes m)
          = exceeding 65488 (textLength m) (longString (47 + textLength m)) := by
        rw [stringRefusal, hlen]
        by_cases hfit : textLength m ≤ 65488
        · rw [exceeding, exceeding, if_pos hfit, if_pos (by omega)]
        · rw [exceeding, exceeding, if_neg hfit, if_neg (by omega)]
      rw [written_membersReport hstop, textReport, hover]
      rfl

/-! ## Messages -/

/-- A codec of one field. -/
theorem Reports.field {p : Put} {f : Field} (hp : Reports p (fieldReport f)) :
    Reports p (.all ([f].map fieldReport)) :=
  hp.congr (Reporting.seq_whole_nil _).symm

/-- **FIELD BY FIELD**: whatever is made of fields reports what they report, one
    after the other. -/
theorem reports_of_consists {stats : Prop} {c : Codec α} {f : α → List Field}
    (h : Consists stats c f) : ∀ a, Reports (c.put a) (.all ((f a).map fieldReport)) := by
  induction h with
  | uint8 => exact fun v => (reports_integer (.u8 v)).field
  | uint16 => exact fun v => (reports_integer (.u16 v)).field
  | uint32 => exact fun v => (reports_integer (.u32 v)).field
  | uint64 => exact fun v => (reports_integer (.u64 v)).field
  | qid => exact fun q => (reports_qid q).field
  | string => exact fun s => (reports_string s).field
  | names => exact fun l => (reports_vector reports_string l).field
  | qids => exact fun l => (reports_vector reports_qid l).field
  | data => exact fun m => (reports_data m.data).field
  | stat _ _ ih => exact fun m => (reports_stat (ih m)).field
  | pair _ _ ihc ihd =>
      exact fun p => ((ihc p.1).seq (ihd p.2)).congr (by rw [List.map_append, Reporting.all_append])
  | via _ ih => exact fun a => ih _

/-- A vector is stopped by its length or by its first stopped element. -/
theorem stopped_countedReport (n : Nat) (rs : List (Report UInt8 Exception)) :
    (countedReport n rs).stopped = (vectorRefusal n).or (Report.all rs).stopped := by
  rw [countedReport, stopped_check, stopped_seq]
  rfl

theorem draft_countedReport {n : Nat} {rs : List (Report UInt8 Exception)} :
    (countedReport n rs).draft = counted n (rs.map Report.draft) := by
  have hreason : vectorRefusal n = none ↔ n ≤ 65535 := exceeding_eq_none
  rw [countedReport, draft_check hreason, draft_seq, draft_all, draft_whole, counted]

theorem findSome?_none (as : List α) :
    (as.findSome? fun _ => (none : Option Exception)) = none :=
  List.findSome?_eq_none_iff.mpr fun _ _ => rfl

/-- What stops a field. -/
theorem stopped_fieldReport (f : Field) : (fieldReport f).stopped = fieldRefusal f := by
  cases f with
  | integer v => rfl
  | qid q => rfl
  | text s => exact stopped_textReport s
  | names l =>
      rw [fieldReport, stopped_countedReport, stopped_all]
      simp only [stopped_textReport]
      rfl
  | qids l =>
      rw [fieldReport, stopped_countedReport, stopped_all]
      simp only [Report.whole, findSome?_none, Option.or_none]
      rfl
  | data s =>
      rw [fieldReport, stopped_check]
      exact Option.or_none
  | stat m =>
      rw [fieldReport, stopped_check]
      exact Option.or_none

/-- The reasons for a stat are those of its limit. -/
theorem statRefusal_eq_none (m : Stat) : fieldRefusal (.stat m) = none ↔ textLength m ≤ 65488 := by
  rw [fieldRefusal, Option.or_eq_none_iff, exceeding_eq_none, List.findSome?_eq_none_iff]
  constructor
  · exact And.right
  · intro hfit
    refine ⟨?_, hfit⟩
    intro s hs
    rw [textLength] at hfit
    refine exceeding_eq_none.mpr ?_
    simp only [List.mem_cons, List.not_mem_nil, or_false] at hs
    rcases hs with rfl | rfl | rfl | rfl <;> omega

/-- The report of a field is its draft, with the reason. -/
theorem draft_fieldReport (f : Field) : (fieldReport f).draft = fieldDraft f := by
  cases f with
  | integer v => rfl
  | qid q => rfl
  | text s => exact draft_textReport s
  | names l =>
      rw [fieldReport, draft_countedReport, List.map_map, fieldDraft]
      exact congrArg _ (List.map_congr_left fun s _ => draft_textReport s)
  | qids l =>
      rw [fieldReport, draft_countedReport, List.map_map, fieldDraft]
      rfl
  | data s => exact draft_check exceeding_eq_none _
  | stat m => exact draft_check (statRefusal_eq_none m) _

/-- What is put of a header and the fields behind it. -/
def bodyReport (h : MessageHeader) (fs : List Field) : Report UInt8 Exception :=
  (Report.whole (headerBytes h)).seq (.all (fs.map fieldReport))

/-- What is put of a message, and why it is refused. -/
def report (v : Variant dir) : Report UInt8 Exception :=
  .check (if v.kind = .Undefined then some (undefinedMessage dir) else none)
    (bodyReport (heldHeader dir v.kind v.held) (fields dir v.kind v.held))

/-- The header is put whole. -/
theorem report_header (h : MessageHeader) :
    Report.all ((headerFields h).map fieldReport) = .whole (headerBytes h) := by
  simp [headerFields, fieldReport, integerBytes, Report.all, Report.seq, Report.whole, headerBytes,
    le_one]

/-- **EVERY ENCODER DOES WHAT THE REPORT SAYS**; those of the undefined messages
    throw at once. -/
theorem reports_variant (v : Variant dir) : Reports (encodeVariant v) (report v) := by
  obtain ⟨kind, held⟩ := v
  by_cases hk : kind = .Undefined
  · subst hk
    cases dir with
    | Request => exact reports_throw ⟨"Undefined request!"⟩
    | Response => exact reports_throw ⟨"Undefined response!"⟩
  · rw [report, if_neg hk]
    show Reports (encodeHeld dir kind held) _
    rw [encodeHeld_eq hk]
    refine (reports_of_consists (consists_codec hk) held).congr ?_
    rw [List.map_append, Reporting.all_append, report_header]
    rfl

/-- A report stops for the reason the message is refused for. -/
theorem stopped_report (v : Variant dir) : (report v).stopped = refusal v := by
  rw [report, stopped_check, bodyReport, stopped_seq, stopped_all, refusal]
  simp only [stopped_fieldReport]
  by_cases hk : v.kind = .Undefined
  · rw [if_pos hk, if_pos hk]
    rfl
  · rw [if_neg hk, if_neg hk]
    rfl

/-- Without the reason it is the draft of the message. -/
theorem draft_report (v : Variant dir) : (report v).draft = draft v := by
  have hreason : (if v.kind = .Undefined then some (undefinedMessage dir) else none) = none
      ↔ v.kind ≠ .Undefined := by
    by_cases hk : v.kind = .Undefined <;> simp [hk]
  rw [report, draft_check hreason, bodyReport, draft_seq, draft_all, draft_whole, List.map_map,
    draft, body]
  exact congrArg (fun ds => Draft.check _ ((Draft.whole _).seq (Draft.all ds)))
    (List.map_congr_left fun f _ => draft_fieldReport f)

/-- What is put in front of the reason is what the draft says. -/
theorem written_report (v : Variant dir) : (report v).written = (draft v).written :=
  congrArg Draft.written (draft_report v)

/-- The dispatch by kind puts the draft and throws the reason. -/
theorem encodeVariant_carries_out (v : Variant dir) (msg : MessageStream) :
    encodeVariant v msg = match refusal v with
      | none    => .ok () (puts msg (draft v).written)
      | some ex => .error ex (puts msg (draft v).written) := by
  rw [reports_variant v msg, outcome, stopped_report, written_report]

theorem encodeInteraction_carries_out (m : Interaction) (msg : MessageStream) :
    encodeInteraction m msg = match visit refusal m with
      | none    => .ok () (puts msg (visit draft m).written)
      | some ex => .error ex (puts msg (visit draft m).written) := by
  cases m with
  | response r => exact encodeVariant_carries_out r msg
  | request r => exact encodeVariant_carries_out r msg

/-- There is a reason for the messages that are not encodable. -/
theorem refusal_eq_none_iff (v : Variant dir) : refusal v = none ↔ Encodable v := by
  have hcomplete : (report v).stopped.isNone = (draft v).complete :=
    congrArg Draft.complete (draft_report v)
  rw [← complete_draftOf, ← hcomplete, stopped_report, Option.isNone_iff_eq_none]

/-- **WHAT EVERY ENCODER DOES**: on every stream, in any state, a message is put up
    to the first field over its limit and refused with the exception of that
    field; there is none exactly for the encodable messages. -/
theorem encoders_carry_out (m : Interaction) :
    (∀ msg : MessageStream, encodeInteraction m msg = match visit refusal m with
        | none    => .ok () (puts msg (visit draft m).written)
        | some ex => .error ex (puts msg (visit draft m).written))
      ∧ (visit refusal m = none ↔ visit Encodable m) := by
  refine ⟨encodeInteraction_carries_out m, ?_⟩
  cases m with
  | response r => exact refusal_eq_none_iff r
  | request r => exact refusal_eq_none_iff r

end KzrRefusal
