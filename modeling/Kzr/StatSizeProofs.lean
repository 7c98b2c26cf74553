import Kzr.CompletionProofs

/-! # The size in front of a stat

    A stat begins with the number of bytes that follow, and four of the members
    that follow are strings with lengths of their own.  The decoder reads the
    size into a variable it does not look at again and goes by the lengths of
    the strings.

    `Eats` says how far a decoder gets in the bytes in front of it.  For a stat
    that is where the members end, whatever the size says. -/

namespace KzrStatSize

open WireFormat LittleEndian KzrMessageStream KzrPrimitive KzrMessage KzrInteraction
open KzrCompletion

variable {α β : Type}

/-! ## Spans -/

/-- A piece of input: some bytes, or a string behind its 2-byte length. -/
inductive Span where
  | bytes (n : Nat)
  | text

/-- Where the pieces end in `q`. -/
def reach : List Span → Bytes → Nat
  | [], _                => 0
  | .bytes n :: spans, q => n + reach spans (q.drop n)
  | .text :: spans, q    =>
      let n := 2 + value (q.take 2)
      n + reach spans (q.drop n)

theorem reach_append (xs ys : List Span) (q : Bytes) :
    reach (xs ++ ys) q = reach xs q + reach ys (q.drop (reach xs q)) := by
  induction xs generalizing q with
  | nil => simp [reach]
  | cons x xs ih =>
      cases x with
      | bytes n => simp only [List.cons_append, reach, ih, List.drop_drop, Nat.add_assoc]
      | text => simp only [List.cons_append, reach, ih, List.drop_drop, Nat.add_assoc]

/-- A decoder that leaves the stream good has taken the pieces, and they were all
    there. -/
def Eats (d : Get α) (spans : List Span) : Prop :=
  ∀ msg : MessageStream, (d msg).2.good = true →
    msg.good = true ∧ reach spans msg.unread ≤ msg.unread.length
      ∧ (d msg).2.unread = msg.unread.drop (reach spans msg.unread)

theorem eats_pure (a : α) : Eats (pure a) [] := fun _ hg => ⟨hg, Nat.zero_le _, rfl⟩

theorem Eats.bind {d : Get α} {f : α → Get β} {xs ys : List Span} (hd : Eats d xs)
    (hf : ∀ a, Eats (f a) ys) : Eats (d >>= f) (xs ++ ys) := by
  intro msg hg
  have hg2 : (f (d msg).1 (d msg).2).2.good = true := hg
  obtain ⟨hg1, hle2, hrun2⟩ := hf _ _ hg2
  obtain ⟨hg0, hle1, hrun1⟩ := hd msg hg1
  rw [hrun1, List.length_drop] at hle2
  rw [reach_append]
  refine ⟨hg0, by omega, ?_⟩
  show (f (d msg).1 (d msg).2).2.unread = _
  rw [hrun2, hrun1, List.drop_drop]

/-- The same pieces, cut differently. -/
theorem Eats.congr {d : Get α} {xs ys : List Span} (hd : Eats d xs)
    (h : ∀ q, reach xs q = reach ys q) : Eats d ys := by
  intro msg hg
  rw [← h]
  exact hd msg hg

/-- A decoder that completes what it gets eats the pieces its bytes are made of. -/
theorem eats_of_completes {d : Get α} {P : α → Bytes → Prop} {spans : List Span}
    (hd : Completes d P) (hreach : ∀ a bs rest, P a bs → reach spans (bs ++ rest) = bs.length) :
    Eats d spans := by
  intro msg hg
  obtain ⟨bs, hbs, hgives⟩ := hd msg
  cases hgives with
  | whole hg0 _ hu =>
      rw [hu, hreach _ _ _ hbs, List.length_append, List.drop_left]
      exact ⟨hg0, Nat.le_add_right _ _, rfl⟩
  | cut _ hbad => exact nomatch hbad.symm.trans hg
  | closed _ hbad => exact nomatch hbad.symm.trans hg

/-! ## Primitive decoders -/

theorem eats_uint8 : Eats decodeUInt8 [.bytes 1] :=
  eats_of_completes completes_uint8 fun v bs _ h => by
    rw [u8_encode] at h
    cases h
    rfl

theorem eats_uint16 : Eats decodeUInt16 [.bytes 2] :=
  eats_of_completes completes_uint16 fun v bs _ h => by
    rw [u16_encode] at h
    cases h
    rfl

theorem eats_uint32 : Eats decodeUInt32 [.bytes 4] :=
  eats_of_completes completes_uint32 fun v bs _ h => by
    rw [u32_encode] at h
    cases h
    rfl

/-- In either order, the eight bytes of one integer. -/
theorem eats_uint64 (order : ArgOrder) : Eats (decodeUInt64 order) [.bytes 8] :=
  eats_of_completes (completes_uint64 order) fun v bs _ h => by
    obtain ⟨sent, hsent, -⟩ := h
    rw [u64_encode] at hsent
    cases hsent
    rfl

/-- A string ends where its length says. -/
theorem eats_string (data : Bytes) : Eats (decodeString data) [.text] :=
  eats_of_completes (completes_string data) fun s bs rest h => by
    obtain ⟨sent, hsent, -⟩ := h
    have hfits : sent.length < 65536 := (length_of_string hsent).1
    rw [stringFormat_encode hfits] at hsent
    cases hsent
    have hcount : ((le 2 sent.length ++ sent ++ rest).take 2) = le 2 sent.length := by
      rw [List.append_assoc, List.take_left' (length_le 2 _)]
    rw [reach, reach, hcount, value_le hfits, List.length_append, length_le, Nat.add_zero]

/-! ## Stats -/

/-- `type[2] dev[4] qid[13] mode[4] atime[4] mtime[4] length[8] name[s] uid[s]
    gid[s] muid[s]` -/
def memberSpans : List Span :=
  [.bytes 2, .bytes 4, .bytes 13, .bytes 4, .bytes 4, .bytes 4, .bytes 8, .text, .text, .text,
    .text]

theorem eats_qid (order : ArgOrder) (this : Qid) : Eats (this.decode order) [.bytes 13] := by
  refine (eats_uint8.bind fun _ => eats_uint32.bind fun _ =>
    (eats_uint64 order).bind fun _ => eats_pure _).congr ?_
  intro q
  simp [reach]

/-- A decoder that only wraps up what another one has read. -/
theorem Eats.last {d : Get α} {xs : List Span} (hd : Eats d xs) (g : α → β) :
    Eats (d >>= fun a => pure (g a)) xs := by
  have h := hd.bind fun a => eats_pure (g a)
  rwa [List.append_nil] at h

/-- The members end where their own lengths say. -/
theorem eats_stat (order : ArgOrder) (this : Stat) :
    Eats (this.decode order) (.bytes 2 :: memberSpans) :=
  eats_uint16.bind fun _ => eats_uint16.bind fun _ => eats_uint32.bind fun _ =>
    ((eats_qid order _).last _).bind fun _ => eats_uint32.bind fun _ =>
      eats_uint32.bind fun _ => eats_uint32.bind fun _ => (eats_uint64 order).bind fun _ =>
        ((eats_string _).last _).bind fun _ => (eats_string _).bind fun _ =>
          (eats_string _).bind fun _ => (eats_string _).last _

theorem eats_message {kind dir} (this : Message kind dir) :
    Eats this.decode [.bytes 3] := by
  refine ((((eats_uint8.last _).bind fun _ => eats_uint16.last _).last _)).congr ?_
  intro q
  simp [reach]

theorem eats_wStatRequest (order : ArgOrder) (this : WStatRequest) :
    Eats (this.decode order) (.bytes 7 :: .bytes 2 :: memberSpans) := by
  refine ((eats_message _).bind fun _ => (eats_uint32.last _).bind fun _ =>
    (eats_stat order _).last _).congr ?_
  intro q
  simp only [List.cons_append, List.nil_append, reach, List.drop_drop, ← Nat.add_assoc]

/-! ## The size -/

/-- The size in front of the stat that begins `q`. -/
def declared (q : Bytes) : Nat := value (q.take 2)

/-- The number of bytes its members take. -/
def taken (q : Bytes) : Nat := reach memberSpans (q.drop 2)

/-- The decoder never runs off the end of the stream. -/
def StaysInside (d : Decoder α) (msg : MessageStream) (this : α) : Prop :=
  ∀ msg' value, d (msg, this) = .ok () (msg', value) → msg'.good = true

/-- A stat on its own has nothing in front of it. -/
theorem eats_stat_alone (order : ArgOrder) (this : Stat) :
    Eats (this.decode order) (.bytes 0 :: .bytes 2 :: memberSpans) :=
  (eats_stat order this).congr fun _ => (Nat.zero_add _).symm

theorem staysInside_of_good {decode : α → Get α} {msg : MessageStream} {this : α}
    (h : (decode this msg).2.good = true) : StaysInside (inPlace decode) msg this := by
  rintro msg' value ⟨⟩
  exact h

/-- What is said of a decoder with a stat behind its first `front` bytes: if it
    returns, it has taken as many bytes behind the size as the size says, and
    when the members end elsewhere it throws. -/
def HonoursSize (d : Decoder α) (front : Nat) (msg : MessageStream) (this : α) : Prop :=
  (∀ msg' value, d (msg, this) = .ok () (msg', value) →
      msg.unread.length - msg'.unread.length = front + 2 + declared (msg.unread.drop front))
    ∧ (taken (msg.unread.drop front) ≠ declared (msg.unread.drop front) →
      ∃ ex s, d (msg, this) = .error ex s)

/-- A decoder that goes by the lengths of the strings honours the size exactly
    when they agree with it. -/
theorem honoursSize_iff {decode : α → Get α} {front : Nat} {msg : MessageStream} {this : α}
    (heats : Eats (decode this) (.bytes front :: .bytes 2 :: memberSpans))
    (hinside : StaysInside (inPlace decode) msg this) :
    HonoursSize (inPlace decode) front msg this
      ↔ taken (msg.unread.drop front) = declared (msg.unread.drop front) := by
  have hrun : inPlace decode (msg, this)
      = .ok () ((decode this msg).2, (decode this msg).1) := rfl
  obtain ⟨-, hle, hunread⟩ := heats msg (hinside _ _ hrun)
  have hreach : reach (.bytes front :: .bytes 2 :: memberSpans) msg.unread
      = front + 2 + taken (msg.unread.drop front) := by
    simp only [reach, taken, Nat.add_assoc]
  have htaken : msg.unread.length - (decode this msg).2.unread.length
      = front + 2 + taken (msg.unread.drop front) := by
    rw [hunread, List.length_drop, ← hreach]
    omega
  constructor
  · rintro ⟨hreturns, -⟩
    have hdeclared := hreturns _ _ hrun
    omega
  · intro hagree
    refine ⟨?_, fun hne => absurd hagree hne⟩
    intro msg' value hok
    rw [hrun] at hok
    cases hok
    rw [htaken, hagree]

/-- **WHEN THE SIZE IS HONOURED**, by a stat on its own and by one inside a
    `Twstat`: when it is the number of bytes the members take. -/
theorem stat_size_honoured_iff (order : ArgOrder) (msg : MessageStream) :
    (∀ this : Stat, StaysInside (inPlace (Stat.decode order)) msg this →
        (HonoursSize (inPlace (Stat.decode order)) 0 msg this
          ↔ taken msg.unread = declared msg.unread))
      ∧ ∀ this : WStatRequest, StaysInside (decodeHeld order .Request .WStat) msg this →
        (HonoursSize (decodeHeld order .Request .WStat) 7 msg this
          ↔ taken (msg.unread.drop 7) = declared (msg.unread.drop 7)) := by
  constructor
  · intro this hinside
    exact honoursSize_iff (eats_stat_alone order this) hinside
  · intro this hinside
    exact honoursSize_iff (eats_wStatRequest order this) hinside

/-- A stat of zeros takes 47 bytes behind its size, on its own and behind seven
    more. -/
theorem stat_size_honoured_zeros :
    let alone := (MessageStream.new fun _ => 0).setStr ([47, 0] ++ List.replicate 47 0)
    let inside := (MessageStream.new fun _ => 0).setStr
      (List.replicate 7 0 ++ ([47, 0] ++ List.replicate 47 0))
    HonoursSize (inPlace (Stat.decode .leftFirst)) 0 alone {}
      ∧ HonoursSize (decodeHeld .leftFirst .Request .WStat) 7 inside ({} : WStatRequest) :=
  ⟨((stat_size_honoured_iff .leftFirst _).1 {} (staysInside_of_good (by decide))).mpr (by decide),
    ((stat_size_honoured_iff .leftFirst _).2 {}
      (@staysInside_of_good _ (WStatRequest.decode .leftFirst) _ _ (by decide))).mpr (by decide)⟩

/-- With a size of zero in front, the same stat is decoded all the same. -/
theorem stat_size_ignored :
    let msg := (MessageStream.new fun _ => 0).setStr (List.replicate 49 0)
    StaysInside (inPlace (Stat.decode .leftFirst)) msg {}
      ∧ declared msg.unread = 0 ∧ taken msg.unread = 47
      ∧ ¬ HonoursSize (inPlace (Stat.decode .leftFirst)) 0 msg {} := by
  intro msg
  have hinside : StaysInside (inPlace (Stat.decode .leftFirst)) msg {} :=
    staysInside_of_good (by decide)
  refine ⟨hinside, by decide, by decide, ?_⟩
  rw [honoursSize_iff (eats_stat_alone .leftFirst {}) hinside]
  decide

end KzrStatSize
