import Kzr.ForwardProofs
import Kzr.QueueProofs

/-! # What decoders make of bytes that may end too early

    No decoder looks at the flags, so it goes on when the bytes run out, with
    whatever stands in memory for those that are missing.  What it returns then is
    what it would have made of some bytes that begin with the ones it saw.

    `Completes` says so of a decoder on every stream, and is closed under
    sequencing.  When the stream is still good at the end, the bytes are the ones
    that are gone; the decoder has taken an encoding.  Every codec made of fields
    without a stat is of this kind. -/

namespace KzrCompletion

open WireFormat LittleEndian KzrMessageStream KzrPrimitive KzrCodec KzrMessage KzrMessageCodec
open KzrField (Field Consists)
open KzrForward (readCharacters)
open KzrIntegerCodec (Value Width decodeValue valueBytes received)
open KzrQueue (unread_storageGet unread_storageRead)

variable {α β γ : Type}

/-! ## Streams that give bytes -/

/-- What becomes of a stream that a decoder gets `bs` from: they are taken off it,
    or it ends within them and is drained.  One that is not good is left as full
    as it was. -/
inductive Gives (bs : Bytes) (msg msg' : MessageStream) : Prop where
  | whole  : msg.good = true → msg'.good = true → msg.unread = bs ++ msg'.unread → Gives bs msg msg'
  | cut    : msg.good = true → msg'.good = false → msg'.unread = [] → msg.unread <+: bs →
      Gives bs msg msg'
  | closed : msg.good = false → msg'.good = false → msg'.unread = msg.unread → Gives bs msg msg'

/-- Bytes got one after the other are got together. -/
theorem Gives.trans {as bs : Bytes} {s t u : MessageStream} (h : Gives as s t)
    (h' : Gives bs t u) : Gives (as ++ bs) s u := by
  cases h with
  | whole hs ht hst =>
      cases h' with
      | whole _ hu htu => exact .whole hs hu (by rw [hst, htu, List.append_assoc])
      | cut _ hu hnil hcut =>
          refine .cut hs hu hnil ?_
          rw [hst]
          exact (List.prefix_append_right_inj as).mpr hcut
      | closed ht' => exact nomatch ht.symm.trans ht'
  | cut hs ht hnil hcut =>
      -- the second decoder finds a flag up and nothing to take
      cases h' with
      | whole ht' => exact nomatch ht'.symm.trans ht
      | cut ht' => exact nomatch ht'.symm.trans ht
      | closed _ hu hsame =>
          exact .cut hs hu (hsame.trans hnil) (hcut.trans (List.prefix_append as bs))
  | closed hs ht hsame =>
      cases h' with
      | whole ht' => exact nomatch ht'.symm.trans ht
      | cut ht' => exact nomatch ht'.symm.trans ht
      | closed _ hu hsame' => exact .closed hs hu (hsame'.trans hsame)

theorem gives_nil (msg : MessageStream) : Gives [] msg msg := by
  by_cases hg : msg.good = true
  · exact .whole hg hg rfl
  · exact .closed (by simpa using hg) (by simpa using hg) rfl

/-! ## Decoders that complete -/

/-- On every stream the decoder returns something `P` relates to the bytes it got,
    the missing ones made up. -/
def Completes (d : Get α) (P : α → Bytes → Prop) : Prop :=
  ∀ msg, ∃ bs, P (d msg).1 bs ∧ Gives bs msg (d msg).2

theorem completes_pure (a : α) : Completes (pure a) (fun b bs => b = a ∧ bs = []) :=
  fun msg => ⟨[], ⟨rfl, rfl⟩, gives_nil msg⟩

/-- Decoders in sequence get one part after the other, the second perhaps all of it
    made up. -/
theorem Completes.bind {d : Get α} {f : α → Get β} {P : α → Bytes → Prop}
    {Q : α → β → Bytes → Prop} (hd : Completes d P) (hf : ∀ a, Completes (f a) (Q a)) :
    Completes (d >>= f) (fun b bs => ∃ a u v, P a u ∧ Q a b v ∧ bs = u ++ v) := by
  intro msg
  obtain ⟨u, hu, hgives⟩ := hd msg
  obtain ⟨v, hv, hgives'⟩ := hf (d msg).1 (d msg).2
  exact ⟨u ++ v, ⟨_, u, v, hu, hv, rfl⟩, hgives.trans hgives'⟩

theorem Completes.weaken {d : Get α} {P Q : α → Bytes → Prop} (hd : Completes d P)
    (h : ∀ a bs, P a bs → Q a bs) : Completes d Q := by
  intro msg
  obtain ⟨bs, hbs, hgives⟩ := hd msg
  exact ⟨bs, h _ bs hbs, hgives⟩

/-- Assembling the result gets nothing more. -/
theorem Completes.last {d : Get α} {P : α → Bytes → Prop} (hd : Completes d P) (g : α → β) :
    Completes (d >>= fun x => pure (g x)) (fun b bs => ∃ a, P a bs ∧ b = g a) := by
  refine (hd.bind fun a => completes_pure (g a)).weaken ?_
  rintro b bs ⟨a, u, v, hu, ⟨rfl, rfl⟩, rfl⟩
  exact ⟨a, by rwa [List.append_nil], rfl⟩

/-! ## The three ways to read -/

/-- A read of `n` bytes leaves the stream good if it was and has them. -/
theorem good_storageRead (n : Nat) (msg : MessageStream) :
    (storageRead n msg).2.good = true ↔ msg.good = true ∧ n ≤ msg.unread.length :=
  CharStream.good_read msg.storage n

/-- A decoder that moves by `n` and is done when these were there. -/
theorem gives_of_moves {n : Nat} {bs : Bytes} {msg msg' : MessageStream}
    (hgood : msg'.good = true ↔ msg.good = true ∧ n ≤ msg.unread.length)
    (hmoves : msg'.unread = if msg.good then msg.unread.drop n else msg.unread)
    (hlen : bs.length = n) (hgot : (if msg.good then msg.unread.take n else []) <+: bs) :
    Gives bs msg msg' := by
  by_cases hg : msg.good = true
  · rw [if_pos hg] at hmoves hgot
    by_cases hn : n ≤ msg.unread.length
    · have hbs : msg.unread.take n = bs :=
        hgot.eq_of_length (by rw [List.length_take_of_le hn, hlen])
      refine .whole hg (hgood.mpr ⟨hg, hn⟩) ?_
      rw [hmoves, ← hbs, List.take_append_drop]
    · have hend : msg.unread.length ≤ n := Nat.le_of_not_le hn
      rw [List.take_of_length_le hend] at hgot
      refine .cut hg ?_ (hmoves.trans (List.drop_eq_nil_of_le hend)) hgot
      simpa using fun hg' => hn (hgood.mp hg').2
  · rw [if_neg hg] at hmoves
    refine .closed (by simpa using hg) ?_ hmoves
    simpa using fun hg' => hg (hgood.mp hg').1

/-- What a read gets stands in front of what was in memory. -/
theorem prefix_ofFn {n : Nat} {got : Bytes} (hn : got.length ≤ n) (rest : Fin n → UInt8) :
    got <+: List.ofFn fun i : Fin n => if h : i.val < got.length then got[i.val] else rest i := by
  rw [List.prefix_iff_getElem?]
  intro i hi
  simp [hi, Nat.lt_of_lt_of_le hi hn]

/-- A read gets no more than it asks for. -/
theorem length_got_le (n : Nat) (msg : MessageStream) :
    (msg.storage.read n).1.length ≤ n := by
  have hgot : (msg.storage.read n).1 = if msg.good then msg.unread.take n else [] :=
    CharStream.fst_read msg.storage n
  rw [hgot]
  split
  · exact List.length_take_le n msg.unread
  · exact Nat.zero_le n

/-- A read into a temporary gets the temporary, whose end may be what stood in memory. -/
theorem completes_storageRead (n : Nat) :
    Completes (storageRead n) (fun t bs => bs = List.ofFn t) := by
  intro msg
  refine ⟨_, rfl, gives_of_moves (good_storageRead n msg) (unread_storageRead n msg)
    (List.length_ofFn) ?_⟩
  have hgot : (msg.storage.read n).1 = if msg.good then msg.unread.take n else [] :=
    CharStream.fst_read msg.storage n
  rw [← hgot]
  exact prefix_ofFn (length_got_le n msg) _

/-- A `get` leaves the stream good if it was and has a byte. -/
theorem good_storageGet (msg : MessageStream) :
    (storageGet msg).2.good = true ↔ msg.good = true ∧ 1 ≤ msg.unread.length := by
  constructor
  · intro hg
    -- a `get` that left the stream good took a character
    have hgood : msg.storage.get.2.good = true := by
      revert hg
      simp only [storageGet]
      cases msg.storage.get with
      | mk c storage => cases c <;> exact id
    obtain ⟨hg0, c, rest, hu, -⟩ := CharStream.get_good hgood
    refine ⟨hg0, ?_⟩
    show 1 ≤ msg.storage.unread.length
    rw [hu]
    exact Nat.le_add_left 1 _
  · rintro ⟨hg, hn⟩
    obtain ⟨b, rest, hu⟩ := List.exists_cons_of_length_pos hn
    have hread := reads_uint8 b [b] rest msg rfl hg hu
    show (decodeUInt8 msg).2.good = true
    rw [hread]
    exact hg

/-- A `get` gets the byte it returns. -/
theorem completes_storageGet : Completes storageGet (fun c bs => bs = [c]) := by
  intro msg
  refine ⟨_, rfl, gives_of_moves (good_storageGet msg) (unread_storageGet msg) rfl ?_⟩
  by_cases hg : msg.good = true
  · rw [if_pos hg]
    cases hu : msg.unread with
    | nil => exact List.nil_prefix
    | cons b rest =>
        have hread : storageGet msg = (b, msg.advance 1) := reads_uint8 b [b] rest msg rfl hg hu
        rw [hread]
        exact List.prefix_rfl
  · rw [if_neg hg]
    exact List.nil_prefix

/-- The characters a string has not got can be made up, of the ones it had. -/
theorem exists_storeAt (data : Bytes) {got : Bytes} {n : Nat} (hn : got.length ≤ n) :
    ∃ bs, bs.length = n ∧ got <+: bs ∧ storeAt data bs = storeAt data got := by
  refine ⟨(got ++ data.drop got.length ++ List.replicate n 0).take n, ?_, ?_, ?_⟩
  · simp
    omega
  · rw [List.append_assoc]
    exact List.prefix_take_iff.mpr ⟨List.prefix_append _ _, hn⟩
  · -- place by place: what is made up behind `got` is what stood there
    apply List.ext_getElem?
    intro i
    simp only [storeAt, List.getElem?_append, List.getElem?_take, List.getElem?_drop,
      List.length_append, List.length_take, List.length_drop, List.length_replicate,
      List.getElem?_replicate]
    grind

/-- A read into a string gets as many characters as it asks for, and stores the ones
    there is room for. -/
theorem completes_characters (data : Bytes) (n : Nat) :
    Completes (readCharacters data n) (fun s bs => bs.length = n ∧ s = storeAt data bs) := by
  intro msg
  have hgot : (msg.storage.read n).1 = if msg.good then msg.unread.take n else [] :=
    CharStream.fst_read msg.storage n
  obtain ⟨bs, hbs, hpre, hstore⟩ := exists_storeAt data (length_got_le n msg)
  rw [hgot] at hpre
  exact ⟨bs, ⟨hbs, hstore.symm⟩,
    gives_of_moves (good_storageRead n msg) (unread_storageRead n msg) hbs hpre⟩

/-! ## Fields -/

/-- A byte, there or not, is the encoding of itself. -/
theorem completes_uint8 : Completes decodeUInt8 (fun v bs => u8.encode v = some bs) :=
  completes_storageGet.weaken fun _ _ h => congrArg some h.symm

/-- Two bytes, there or not, encode the integer made of them. -/
theorem completes_uint16 : Completes decodeUInt16 (fun v bs => u16.encode v = some bs) := by
  refine ((completes_storageRead 2).last fun t => build8 (t 0) (t 1)).weaken ?_
  rintro v bs ⟨t, rfl, rfl⟩
  rw [u16_encode, build8_eq_value]
  exact congrArg some (le_value [t 0, t 1])

/-- Four bytes, there or not, encode the integer made of them. -/
theorem completes_uint32 : Completes decodeUInt32 (fun v bs => u32.encode v = some bs) := by
  refine ((completes_storageRead 4).last fun t => build8x4 (t 0) (t 1) (t 2) (t 3)).weaken ?_
  rintro v bs ⟨t, rfl, rfl⟩
  rw [u32_encode, build8x4_eq_value]
  exact congrArg some (le_value [t 0, t 1, t 2, t 3])

/-- In either order the two halves together are one encoding. -/
theorem completes_uint64 (order : ArgOrder) :
    Completes (decodeUInt64 order) (fun v bs =>
      ∃ sent, u64.encode sent = some bs ∧ v = reread order sent) := by
  cases order with
  | leftFirst =>
      refine (completes_uint32.bind fun lower =>
        completes_uint32.last (fun upper => build32 lower upper)).weaken ?_
      rintro v bs ⟨lower, as, cs, h1, ⟨upper, h2, rfl⟩, rfl⟩
      exact ⟨build32 lower upper, by rw [u64_encode_build32, h1, h2, cat_some], rfl⟩
  | rightFirst =>
      refine (completes_uint32.bind fun upper =>
        completes_uint32.last (fun lower => build32 lower upper)).weaken ?_
      rintro v bs ⟨first, as, cs, h1, ⟨second, h2, rfl⟩, rfl⟩
      refine ⟨build32 first second, by rw [u64_encode_build32, h1, h2, cat_some], ?_⟩
      rw [reread, shiftRight_build32, toUInt32_build32]

/-- The count in front of what it counts. -/
theorem count16_encode {n : Nat} {len : UInt16} {u : Bytes} (hn : n = len.toNat)
    (h : u16.encode len = some u) : (uint 2).encode n = some u := by
  rw [hn, ← h]
  rfl

/-- A string is what is stored of one that begins with what there was. -/
theorem completes_string (data : Bytes) :
    Completes (decodeString data) (fun s bs =>
      ∃ sent, stringFormat.encode sent = some bs ∧ s = storeAt data sent) := by
  refine (completes_uint16.bind fun len => completes_characters data len.toNat).weaken ?_
  rintro s bs ⟨len, u, v, hlen, ⟨hv, rfl⟩, rfl⟩
  refine ⟨v, ?_, rfl⟩
  show cat ((uint 2).encode v.length) (encodeEach u8.encode v) = some (u ++ v)
  rw [count16_encode hv hlen, encodeEach_u8, cat_some]

/-- The loop of the vector decoder adds what it would of elements that begin with what
    there was. -/
theorem completes_elements {new : α} {d : α → Get α} {e : β → Option Bytes} {r : β → α}
    (h : Completes (d new) (fun a bs => ∃ b, e b = some bs ∧ a = r b)) (n : Nat)
    (collec : List α) :
    Completes (decodeElements new d n collec) (fun l bs =>
      ∃ sent, sent.length = n ∧ encodeEach e sent = some bs ∧ l = collec ++ sent.map r) := by
  induction n generalizing collec with
  | zero =>
      refine (completes_pure collec).weaken ?_
      rintro l bs ⟨rfl, rfl⟩
      exact ⟨[], rfl, rfl, (List.append_nil _).symm⟩
  | succ n ih =>
      refine (h.bind fun back => ih (collec ++ [back])).weaken ?_
      rintro l bs ⟨-, u, v, ⟨b, hb, rfl⟩, ⟨sent, hlen, hsent, rfl⟩, rfl⟩
      refine ⟨b :: sent, by rw [List.length_cons, hlen], ?_, ?_⟩
      · rw [encodeEach, hb, hsent, cat_some]
      · rw [List.append_assoc]
        rfl

/-- A vector grows by what it would of a vector that begins with what there was. -/
theorem completes_vector {new : α} {d : α → Get α} {f : Format UInt8 β} {r : β → α}
    (h : Completes (d new) (fun a bs => ∃ b, f.encode b = some bs ∧ a = r b))
    (collec : List α) :
    Completes (decodeVector new d collec) (fun l bs =>
      ∃ sent, (vectorFormat f).encode sent = some bs ∧ l = collec ++ sent.map r) := by
  refine (completes_uint16.bind fun len => completes_elements h len.toNat collec).weaken ?_
  rintro l bs ⟨len, u, v, hlen, ⟨sent, hsent, hv, rfl⟩, rfl⟩
  refine ⟨sent, ?_, rfl⟩
  show cat ((uint 2).encode sent.length) (encodeEach f.encode sent) = some (u ++ v)
  rw [count16_encode hsent hlen, hv, cat_some]

/-- A data block grows by what it would of a block that begins with what there was. -/
theorem completes_hasData (old : HasDataStorage) :
    Completes old.decode (fun m bs =>
      ∃ sent, hasDataFormat.encode sent = some bs ∧ m = ⟨old.data ++ sent.data⟩) := by
  have hbyte : Completes ((fun _ => decodeUInt8) (0 : UInt8))
      (fun c bs => ∃ b, u8.encode b = some bs ∧ c = id b) :=
    completes_uint8.weaken fun c _ h => ⟨c, h, rfl⟩
  refine (completes_uint32.bind fun size =>
    (completes_elements hbyte size.toNat old.data).last HasDataStorage.mk).weaken ?_
  rintro m bs ⟨size, u, v, hsize, ⟨-, ⟨sent, hlen, hv, rfl⟩, rfl⟩, rfl⟩
  refine ⟨⟨sent⟩, ?_, by rw [List.map_id]⟩
  have hcount : (uint 4).encode sent.length = some u := by
    rw [hlen, ← hsize]
    rfl
  show cat ((uint 4).encode sent.length) (encodeEach u8.encode sent) = some (u ++ v)
  rw [hcount, hv, cat_some]

/-! ## Codecs -/

/-- Whatever the stream holds, the decoder of the codec returns what it would of
    some encoding that begins with it. -/
def Exact (c : Codec α) : Prop :=
  ∀ order old, Completes (c.get order old) fun a bs =>
    ∃ sent, c.format.encode sent = some bs ∧ a = c.received order old sent

/-- Two codecs in a row. -/
theorem Exact.pair {c : Codec α} {d : Codec β} (hc : Exact c) (hd : Exact d) :
    Exact (c.pair d) := by
  intro order old
  refine ((hc order old.1).bind fun a => (hd order old.2).last fun b => (a, b)).weaken ?_
  rintro p bs ⟨-, u, v, ⟨a, ha, rfl⟩, ⟨-, ⟨b, hb, rfl⟩, rfl⟩, rfl⟩
  refine ⟨(a, b), ?_, rfl⟩
  show cat (c.format.encode a) (d.format.encode b) = some (u ++ v)
  rw [ha, hb, cat_some]

theorem Exact.via {c : Codec γ} {parts : α → γ} {make : γ → α}
    {make_parts : ∀ a, make (parts a) = a} {parts_make : ∀ t, parts (make t) = t}
    (hc : Exact c) : Exact (c.via parts make make_parts parts_make) := by
  intro order old
  refine ((hc order (parts old)).last make).weaken ?_
  rintro a bs ⟨-, ⟨t, ht, rfl⟩, rfl⟩
  refine ⟨make t, ?_, ?_⟩
  · show c.format.encode (parts (make t)) = some bs
    rw [parts_make, ht]
  · show _ = make (c.received order (parts old) (parts (make t)))
    rw [parts_make]

theorem exact_vector {c : Codec α} (hc : Exact c) (new : α) : Exact (vector c new) :=
  fun order old => completes_vector (hc order new) old

theorem exact_uint8 : Exact uint8 := fun _ _ => completes_uint8.weaken fun v _ h => ⟨v, h, rfl⟩

theorem exact_uint16 : Exact uint16 := fun _ _ => completes_uint16.weaken fun v _ h => ⟨v, h, rfl⟩

theorem exact_uint32 : Exact uint32 := fun _ _ => completes_uint32.weaken fun v _ h => ⟨v, h, rfl⟩

/-- Eight bytes, in either order of the halves. -/
theorem exact_uint64 : Exact uint64 := fun order _ => completes_uint64 order

/-- A string, in the room of the old one. -/
theorem exact_string : Exact string := fun _ old => completes_string old

/-- A qid, whose path is read in either order. -/
theorem exact_qid : Exact qid := .via (exact_uint8.pair (exact_uint32.pair exact_uint64))

/-- **FIELD BY FIELD**: whatever is made of fields completes what it gets, if there
    is no stat among them. -/
theorem exact_of_consists {stats : Prop} {c : Codec α} {f : α → List Field}
    (h : Consists stats c f) (hstats : ¬ stats) : Exact c := by
  induction h with
  | uint8 => exact exact_uint8
  | uint16 => exact exact_uint16
  | uint32 => exact exact_uint32
  | uint64 => exact exact_uint64
  | qid => exact exact_qid
  | string => exact exact_string
  | names => exact exact_vector exact_string []
  | qids => exact exact_vector exact_qid {}
  | data => exact fun _ old => completes_hasData old
  | stat hs => exact absurd hs hstats
  | pair _ _ ihc ihd => exact ihc.pair ihd
  | via _ ih => exact ih.via

end KzrCompletion
