import Mathlib.Data.List.Induction
import Kzr.OverwriteProofs
import Kzr.RoundTripProofs

/-! # One object for many messages

    A server that decodes every message of a class into the same object does not
    end up with the last message.  Header and numbers are those of the last one; the
    lists and the data block have grown by those of every message; and a string
    keeps its size for ever, each of its bytes from the last message whose string
    reached that far.

    What an object holds is described apart from its class, as `Content`, with one
    operation that says what a further message does to it. -/

namespace KzrReuse

open WireFormat KzrOperation KzrMessageStream KzrPrimitive KzrCodec KzrMessage KzrMessageCodec
open KzrInteraction KzrInteractionCodec KzrOverwrite KzrRoundTrip

variable {dir : MessageDirection} {kind : ConceptualOperation}

/-! ## Strings written over -/

/-- A byte of a string is that of the string stored last, if it reaches there. -/
theorem getElem?_storeAt (data got : Bytes) (j : Nat) :
    (storeAt data got)[j]? = if j < data.length ∧ j < got.length then got[j]? else data[j]? := by
  rw [storeAt, List.getElem?_append, List.length_take, List.getElem?_drop]
  by_cases hgot : j < got.length
  · by_cases hdata : j < data.length
    · rw [if_pos (by omega), if_pos ⟨hdata, hgot⟩, List.getElem?_take_of_lt hdata]
    · rw [if_neg (by omega), if_neg (fun h => hdata h.1)]
      rw [List.getElem?_eq_none (by omega), List.getElem?_eq_none (by omega)]
  · rw [if_neg (by omega), if_neg (fun h => hgot h.2)]
    by_cases hdata : got.length ≤ data.length
    · rw [Nat.min_eq_right hdata, Nat.add_sub_cancel' (by omega)]
    · rw [List.getElem?_eq_none (by omega), List.getElem?_eq_none (by omega)]

theorem length_foldl_storeAt (text : Bytes) (got : List Bytes) :
    (got.foldl storeAt text).length = text.length := by
  induction got generalizing text with
  | nil => rfl
  | cons s got ih => rw [List.foldl_cons, ih, length_storeAt]

/-- **THE LAST ONE TO REACH A BYTE**: after any number of strings, each byte is from
    the last that was long enough. -/
theorem getElem?_foldl_storeAt (text : Bytes) (got : List Bytes) {j : Nat} (h : j < text.length) :
    (got.foldl storeAt text)[j]? = ((got.filter (j < ·.length)).getLast?.getD text)[j]? := by
  induction got using List.reverseRecOn with
  | nil => rfl
  | append_singleton got s ih =>
      have hlast : [s].filter (j < ·.length) = if j < s.length then [s] else [] := by
        by_cases hs : j < s.length
        · rw [if_pos hs, List.filter_eq_self.mpr (by simpa using hs)]
        · rw [if_neg hs, List.filter_eq_nil_iff.mpr (by simpa using hs)]
      rw [List.foldl_append, List.foldl_cons, List.foldl_nil, getElem?_storeAt,
        length_foldl_storeAt, List.filter_append, hlast]
      by_cases hs : j < s.length
      · rw [if_pos ⟨h, hs⟩, if_pos hs, List.getLast?_concat, Option.getD_some]
      · rw [if_neg (fun hboth => hs hboth.2), if_neg hs, List.append_nil, ih]

/-! ## What an object holds -/

/-- What decoding adds to or writes over, apart. -/
structure Content where
  header : MessageHeader
  texts  : List Bytes
  names  : List Bytes
  qids   : List Qid
  data   : Bytes

/-- What a message object holds, its other numbers left out. -/
def content (dir : MessageDirection) (kind : ConceptualOperation)
    (held : BoundType dir kind) : Content where
  header := heldHeader dir kind held
  texts := heldTexts dir kind held
  names := (heldVectors dir kind held).1
  qids := (heldVectors dir kind held).2.1
  data := (heldVectors dir kind held).2.2

/-- What an object holds when a further message has been decoded into it. -/
def Content.after (order : ArgOrder) (old m : Content) : Content where
  header := m.header
  texts := List.zipWith storeAt old.texts m.texts
  names := old.names ++ m.names.map (storeAt [])
  qids := old.qids ++ m.qids.map (qid.received order {})
  data := old.data ++ m.data

theorem content_received (order : ArgOrder) (hk : kind ≠ .Undefined) (old m : BoundType dir kind) :
    content dir kind ((codec dir kind hk).received order old m)
      = (content dir kind old).after order (content dir kind m) := by
  cases dir <;> cases kind <;> first | exact absurd rfl hk | rfl

/-! ## Many messages -/

theorem texts_foldl (order : ArgOrder) {start : Content} {ms : List Content} {k : Nat}
    {text : Bytes} (hstart : start.texts[k]? = some text) (hms : ∀ m ∈ ms, k < m.texts.length) :
    (ms.foldl (Content.after order) start).texts[k]?
      = some ((ms.filterMap fun m => m.texts[k]?).foldl storeAt text) := by
  induction ms generalizing start text with
  | nil => exact hstart
  | cons m ms ih =>
      obtain ⟨s, hs⟩ : ∃ s, m.texts[k]? = some s :=
        ⟨_, List.getElem?_eq_getElem (hms m List.mem_cons_self)⟩
      have hafter : (start.after order m).texts[k]? = some (storeAt text s) := by
        rw [Content.after, List.getElem?_zipWith, hstart, hs]
      rw [List.foldl_cons, ih hafter fun m' hm' => hms m' (List.mem_cons_of_mem m hm'),
        List.filterMap_cons, hs, List.foldl_cons]

/-- What has been replaced, and what has grown. -/
theorem lists_foldl (order : ArgOrder) (start : Content) (ms : List Content) :
    let final := ms.foldl (Content.after order) start
    final.header = (ms.map Content.header).getLast?.getD start.header
      ∧ final.names = start.names ++ (ms.flatMap Content.names).map (storeAt [])
      ∧ final.qids = start.qids ++ (ms.flatMap Content.qids).map (qid.received order {})
      ∧ final.data = start.data ++ ms.flatMap Content.data := by
  induction ms using List.reverseRecOn with
  | nil => simp
  | append_singleton ms m ih =>
      obtain ⟨-, hnames, hqids, hdata⟩ := ih
      simp only [List.foldl_append, List.foldl_cons, List.foldl_nil, Content.after, hnames, hqids,
        hdata, List.map_append, List.map_cons, List.map_nil, List.getLast?_concat,
        Option.getD_some, List.flatMap_append, List.flatMap_cons, List.flatMap_nil,
        List.append_nil, List.append_assoc, and_self]

/-- The number of strings is the class's. -/
theorem length_heldTexts (m m' : BoundType dir kind) :
    (heldTexts dir kind m).length = (heldTexts dir kind m').length := by
  cases dir <;> cases kind <;> rfl

/-! ## Decoding again and again -/

/-- Decode `n` times, one after the other and into one object. -/
def decodeInto (order : ArgOrder) (dir : MessageDirection) (kind : ConceptualOperation) :
    Nat → EStateM Exception (MessageStream × BoundType dir kind) Unit
  | 0     => pure ()
  | n + 1 => do
      decodeHeld order dir kind
      decodeInto order dir kind n

theorem decodeInto_of_encodings (order : ArgOrder) (hk : kind ≠ .Undefined)
    {ms : List (BoundType dir kind)} {bs rest : Bytes} {msg : MessageStream}
    (henc : encodeEach (codec dir kind hk).format.encode ms = some bs) (hg : msg.good = true)
    (hu : msg.unread = bs ++ rest) (start : BoundType dir kind) :
    decodeInto order dir kind ms.length (msg, start)
      = .ok () (msg.advance bs.length, ms.foldl ((codec dir kind hk).received order) start) := by
  induction ms generalizing bs msg start with
  | nil =>
      cases henc
      exact congrArg (fun m => EStateM.Result.ok () (m, start)) (advance_zero msg).symm
  | cons m ms ih =>
      obtain ⟨e, es, he, hes, rfl⟩ := cat_eq_some.mp henc
      rw [List.append_assoc] at hu
      have hrest : (msg.advance e.length).unread = es ++ rest := by
        rw [unread_advance, hu, List.drop_left]
      have hfirst := (codec dir kind hk).reads order start m e (es ++ rest) msg he hg hu
      have hlater := ih hes ((good_advance msg e.length).trans hg) hrest
        ((codec dir kind hk).received order start m)
      show EStateM.bind _ _ _ = _
      rw [EStateM.bind, decodeHeld_eq order hk, hfirst]
      simp only [hlater, advance_advance, List.length_append, List.foldl_cons]

theorem content_foldl (order : ArgOrder) (hk : kind ≠ .Undefined) (ms : List (BoundType dir kind))
    (start : BoundType dir kind) :
    content dir kind (ms.foldl ((codec dir kind hk).received order) start)
      = (ms.map (content dir kind)).foldl (Content.after order) (content dir kind start) := by
  induction ms generalizing start with
  | nil => rfl
  | cons m ms ih =>
      rw [List.foldl_cons, ih, content_received, List.map_cons, List.foldl_cons]

/-- **AN OBJECT THAT IS USED AGAIN** for messages of its class holds the header of
    the last one, all the lists and data there ever were, and in each string, whose
    size never changes, every byte as the last message left it whose string was long
    enough. -/
theorem reuse_accumulates (order : ArgOrder) (hk : kind ≠ .Undefined)
    {ms : List (BoundType dir kind)} {indeterminate : Nat → UInt8} {sent msg : MessageStream}
    {rest : Bytes}
    (henc : encodeElements (encodeHeld dir kind) ms (.new indeterminate) = .ok () sent)
    (hg : msg.good = true) (hu : msg.unread = sent.str ++ rest) (start : BoundType dir kind) :
    let first := content dir kind start
    let all := ms.map (content dir kind)
    ∃ msg' final, decodeInto order dir kind ms.length (msg, start) = .ok () (msg', final)
      ∧ msg'.good = true ∧ msg'.unread = rest
      ∧ (content dir kind final).header = (all.map Content.header).getLast?.getD first.header
      ∧ (content dir kind final).names = first.names ++ (all.flatMap Content.names).map (storeAt [])
      ∧ (content dir kind final).qids
        = first.qids ++ (all.flatMap Content.qids).map (qid.received order {})
      ∧ (content dir kind final).data = first.data ++ all.flatMap Content.data
      ∧ ∀ (k : Nat) (text : Bytes), first.texts[k]? = some text →
        ∃ text' : Bytes, (content dir kind final).texts[k]? = some text'
          ∧ text'.length = text.length
          ∧ ∀ j < text.length, text'[j]?
            = (((all.filterMap fun m : Content => m.texts[k]?).filter (j < ·.length)).getLast?.getD
              text)[j]? := by
  intro first all
  have hencodes : Encodes (encodeElements (encodeHeld dir kind) ms)
      (encodeEach (codec dir kind hk).format.encode ms) := by
    refine encodes_elements ms fun m _ => ?_
    rw [encodeHeld_eq hk]
    exact (codec dir kind hk).encodes m
  obtain ⟨bs, hbs, rfl⟩ := hencodes.of_ok (writable_new indeterminate) henc
  have hstr : ((MessageStream.new indeterminate).append bs).str = bs := rfl
  rw [hstr] at hu
  refine ⟨_, _, decodeInto_of_encodings order hk hbs hg hu start,
    (good_advance msg bs.length).trans hg, ?_, ?_⟩
  · rw [unread_advance, hu, List.drop_left]
  · rw [content_foldl]
    obtain ⟨hheader, hnames, hqids, hdata⟩ := lists_foldl order first all
    refine ⟨hheader, hnames, hqids, hdata, fun k text htext => ?_⟩
    have hk' : k < first.texts.length := (List.getElem?_eq_some_iff.mp htext).1
    have hall : ∀ m ∈ all, k < m.texts.length := by
      intro m hm
      obtain ⟨held, -, rfl⟩ := List.mem_map.mp hm
      exact (length_heldTexts start held) ▸ hk'
    exact ⟨_, texts_foldl order htext hall, length_foldl_storeAt text _,
      fun j hj => getElem?_foldl_storeAt text _ hj⟩

/-- Two error responses, the second of them shorter. -/
def twoErrors : List ErrorResponse := [{ ename := [97, 98, 99] }, { ename := [120] }]

/-- Decoded into one object, they leave the first byte of the second in front of what
    the first left. -/
theorem reuse_accumulates_error :
    let msg := (MessageStream.new fun _ => 0).setStr
      [107, 255, 255, 3, 0, 97, 98, 99, 107, 255, 255, 1, 0, 120]
    ∃ msg' final, decodeInto .leftFirst .Response .Error 2
        (msg, ({ ename := [63, 63] } : ErrorResponse)) = .ok () (msg', final)
      ∧ msg'.unread = []
      ∧ ∃ text', (content .Response .Error final).texts[0]? = some text'
        ∧ text'.length = 2 ∧ text'[0]? = some 120 ∧ text'[1]? = some 98 := by
  intro msg
  obtain ⟨msg', final, hdecode, -, hu, -, -, -, -, htexts⟩ :=
    @reuse_accumulates .Response .Error .leftFirst (by decide) twoErrors (fun _ => 0) _ msg [] rfl
      rfl rfl ({ ename := [63, 63] } : ErrorResponse)
  obtain ⟨text', htext, hlen, hbytes⟩ := htexts 0 [63, 63] rfl
  exact ⟨msg', final, hdecode, hu, text', htext, hlen, hbytes 0 (by decide),
    hbytes 1 (by decide)⟩

/-- **A CLONE TAKEN FOR A TRAVERSAL**: a walk request object that is used again calls
    itself a fid clone only as long as nothing decoded into it had a name. -/
theorem isFidClone_foldl (order : ArgOrder) (hk : ConceptualOperation.Walk ≠ .Undefined)
    (ms : List WalkRequest) (start : WalkRequest) :
    WalkRequest.isFidClone (ms.foldl ((codec .Request .Walk hk).received order) start) = true
      ↔ start.isFidClone = true ∧ ∀ m ∈ ms, m.isFidClone = true := by
  have hnames := (lists_foldl order (content .Request .Walk start)
    (ms.map (content .Request .Walk))).2.1
  rw [← @content_foldl .Request .Walk order hk ms start] at hnames
  have hwname : WalkRequest.wname (ms.foldl ((codec .Request .Walk hk).received order) start)
      = start.wname ++ ((ms.map (content .Request .Walk)).flatMap Content.names).map (storeAt []) :=
    hnames
  have hclone (m : WalkRequest) : m.isFidClone = true ↔ m.wname = [] := by
    simp [WalkRequest.isFidClone, WalkRequest.isDirectoryTraversal]
  rw [hclone, hwname, List.append_eq_nil_iff, hclone, List.map_eq_nil_iff, List.flatMap_eq_nil_iff]
  refine and_congr_right fun _ => List.forall_mem_map.trans ?_
  exact forall₂_congr fun m _ => (hclone m).symm

/-! ## Whatever the bytes are -/

/-- The second list has at most so many elements more behind those of the first. -/
def GrownBy {α : Type} (n : Nat) (old new : List α) : Prop :=
  ∃ more, new = old ++ more ∧ more.length ≤ n

theorem GrownBy.refl {α : Type} (n : Nat) (old : List α) : GrownBy n old old :=
  ⟨[], (List.append_nil old).symm, Nat.zero_le n⟩

theorem GrownBy.trans {α : Type} {m n : Nat} {a b c : List α} (hab : GrownBy m a b)
    (hbc : GrownBy n b c) : GrownBy (m + n) a c := by
  obtain ⟨x, rfl, hx⟩ := hab
  obtain ⟨y, rfl, hy⟩ := hbc
  refine ⟨x ++ y, List.append_assoc a x y, ?_⟩
  rw [List.length_append]
  omega

/-- What `n` decodes may do to an object: strings keep their size, and the lists and
    the data grow behind what is there, by no more than the counts can say. -/
structure Kept (n : Nat) (old new : Content) : Prop where
  texts : new.texts.map List.length = old.texts.map List.length
  names : GrownBy (n * 65535) old.names new.names
  qids  : GrownBy (n * 65535) old.qids new.qids
  data  : GrownBy (n * 4294967295) old.data new.data

theorem Kept.refl (n : Nat) (c : Content) : Kept n c c :=
  ⟨rfl, .refl _ _, .refl _ _, .refl _ _⟩

theorem Kept.trans {m n : Nat} {a b c : Content} (hab : Kept m a b) (hbc : Kept n b c) :
    Kept (m + n) a c where
  texts := hbc.texts.trans hab.texts
  names := Nat.add_mul m n 65535 ▸ hab.names.trans hbc.names
  qids := Nat.add_mul m n 65535 ▸ hab.qids.trans hbc.qids
  data := Nat.add_mul m n 4294967295 ▸ hab.data.trans hbc.data

variable {α : Type}

/-- As many elements as were announced, whether or not there are bytes for them. -/
theorem decodeElements_grows (new : α) (d : α → Get α) (n : Nat) (collec : List α)
    (msg : MessageStream) :
    ∃ more, (decodeElements new d n collec msg).1 = collec ++ more ∧ more.length = n := by
  induction n generalizing collec msg with
  | zero => exact ⟨[], (List.append_nil collec).symm, rfl⟩
  | succ n ih =>
      obtain ⟨more, hmore, hlen⟩ := ih (collec ++ [(d new msg).1]) (d new msg).2
      refine ⟨(d new msg).1 :: more, ?_, by rw [List.length_cons, hlen]⟩
      rw [List.append_cons]
      exact hmore

theorem decodeVector_grows (new : α) (d : α → Get α) (collec : List α) (msg : MessageStream) :
    GrownBy 65535 collec (decodeVector new d collec msg).1 := by
  obtain ⟨more, hmore, hlen⟩ := decodeElements_grows new d (decodeUInt16 msg).1.toNat collec
    (decodeUInt16 msg).2
  have hlt := (decodeUInt16 msg).1.toNat_lt
  exact ⟨more, hmore, by omega⟩

theorem hasData_grows (m : HasDataStorage) (msg : MessageStream) :
    GrownBy 4294967295 m.data (m.decode msg).1.data := by
  obtain ⟨more, hmore, hlen⟩ := decodeElements_grows 0 (fun _ => decodeUInt8)
    (decodeUInt32 msg).1.toNat m.data (decodeUInt32 msg).2
  have hlt := (decodeUInt32 msg).1.toNat_lt
  exact ⟨more, hmore, by omega⟩

/-- A string that is decoded into keeps its size, and so do those behind it. -/
theorem sizes_cons (s : Bytes) (msg : MessageStream) {ss ts : List Bytes}
    (h : ss.map List.length = ts.map List.length) :
    ((decodeString s msg).1 :: ss).map List.length = (s :: ts).map List.length := by
  have hlen : (decodeString s msg).1.length = s.length := length_storeAt s _
  rw [List.map_cons, List.map_cons, hlen, h]

/-- Of a message with strings and no lists. -/
theorem Kept.of_texts {old new : Content}
    (htexts : new.texts.map List.length = old.texts.map List.length)
    (hnames : new.names = old.names) (hqids : new.qids = old.qids) (hdata : new.data = old.data) :
    Kept 1 old new :=
  ⟨htexts, hnames ▸ .refl _ _, hqids ▸ .refl _ _, hdata ▸ .refl _ _⟩

/-- **ONE DECODE**, of whatever the stream holds. -/
theorem decodeHeld_kept (order : ArgOrder) {msg msg' : MessageStream}
    {old new : BoundType dir kind}
    (h : decodeHeld order dir kind (msg, old) = .ok () (msg', new)) :
    Kept 1 (content dir kind old) (content dir kind new) := by
  have hk : kind ≠ .Undefined := by
    rintro rfl
    cases dir <;> cases h
  rw [decodeHeld_eq order hk] at h
  obtain rfl : ((codec dir kind hk).get order old msg).1 = new :=
    congrArg Prod.snd (EStateM.Result.ok.inj h).2
  cases dir with
  | Request =>
      cases kind with
      | Undefined => exact absurd rfl hk
      | Version => exact .of_texts (sizes_cons _ _ rfl) rfl rfl rfl
      | Walk => exact ⟨rfl, decodeVector_grows _ _ _ _, .refl _ _, .refl _ _⟩
      | Write => exact ⟨rfl, .refl _ _, .refl _ _, hasData_grows _ _⟩
      | Auth => exact .of_texts (sizes_cons _ _ (sizes_cons _ _ rfl)) rfl rfl rfl
      | Attach => exact .of_texts (sizes_cons _ _ (sizes_cons _ _ rfl)) rfl rfl rfl
      | Create => exact .of_texts (sizes_cons _ _ rfl) rfl rfl rfl
      | WStat =>
          exact .of_texts
            (sizes_cons _ _ (sizes_cons _ _ (sizes_cons _ _ (sizes_cons _ _ rfl)))) rfl rfl rfl
      | _ => exact .of_texts rfl rfl rfl rfl
  | Response =>
      cases kind with
      | Undefined => exact absurd rfl hk
      | Version => exact .of_texts (sizes_cons _ _ rfl) rfl rfl rfl
      | Error => exact .of_texts (sizes_cons _ _ rfl) rfl rfl rfl
      | Stat => exact .of_texts (sizes_cons _ _ rfl) rfl rfl rfl
      | Walk => exact ⟨rfl, .refl _ _, decodeVector_grows _ _ _ _, .refl _ _⟩
      | Read => exact ⟨rfl, .refl _ _, .refl _ _, hasData_grows _ _⟩
      | _ => exact .of_texts rfl rfl rfl rfl

/-- Decodes into one object, each from a stream of its own. -/
inductive Reused (order : ArgOrder) (dir : MessageDirection) (kind : ConceptualOperation) :
    Nat → BoundType dir kind → BoundType dir kind → Prop where
  | unused (held : BoundType dir kind) : Reused order dir kind 0 held held
  | again {n : Nat} {msg msg' : MessageStream} {first next last : BoundType dir kind} :
      Reused order dir kind n first next →
      decodeHeld order dir kind (msg, next) = .ok () (msg', last) →
      Reused order dir kind (n + 1) first last

/-- **NOTHING IS FORGOTTEN**: whatever the streams hold, messages of the class or not,
    an object decoded into `n` times has in front of its lists and its data what it
    had before, at most 65535 elements and 4294967295 bytes more for each decode, and
    all its strings are of the size they were. -/
theorem reused_kept (order : ArgOrder) {n : Nat} {first last : BoundType dir kind}
    (h : Reused order dir kind n first last) :
    Kept n (content dir kind first) (content dir kind last) := by
  induction h with
  | unused held => exact .refl 0 _
  | again _ hdecode ih => exact ih.trans (decodeHeld_kept order hdecode)

/-- A walk request that ends behind its count has three names nobody sent. -/
theorem reused_kept_walk :
    ∃ last : WalkRequest,
      Reused .leftFirst .Request .Walk 1 ({ wname := [[97]] } : WalkRequest) last
        ∧ last.wname = [[97], [], [], []]
        ∧ Kept 1 (content .Request .Walk ({ wname := [[97]] } : WalkRequest))
          (content .Request .Walk last) := by
  have hdecode : decodeHeld .leftFirst .Request .Walk
      ((MessageStream.new fun _ => 0).setStr [110, 1, 0, 0, 0, 0, 0, 0, 0, 0, 0, 3, 0],
        ({ wname := [[97]] } : WalkRequest)) = .ok () _ := rfl
  have hreused := Reused.again (.unused _) hdecode
  exact ⟨_, hreused, by decide +kernel, reused_kept .leftFirst hreused⟩

end KzrReuse
