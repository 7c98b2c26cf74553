import Kzr.MessageStreamProofs

/-! # What the primitive encoders and decoders do

    The integer encoders spell their argument in little-endian bytes and the
    integer decoders read it back, in any order of evaluation but for the
    64-bit one, which may exchange the halves.  Strings and vectors add a
    16-bit count.

    `Encodes` and `Reads` compose along `>>=`, so a message built from these
    primitives is specified by composing their specifications. -/

namespace KzrPrimitive

open WireFormat LittleEndian KzrMessageStream

variable {α β γ : Type}

/-! ## The encoder relation -/

/-- On a writable stream `p` appends exactly the bytes `e`; when there are none
    it throws. -/
structure Encodes (p : Put) (e : Option Bytes) : Prop where
  appends : ∀ bs, e = some bs → ∀ msg : MessageStream, msg.Writable →
    p msg = .ok () (msg.append bs)
  throws : e = none → ∀ msg : MessageStream, msg.Writable →
    ∃ ex msg', p msg = .error ex msg'

/-- Encoders in sequence concatenate. -/
theorem Encodes.seq {p q : Put} {e e' : Option Bytes}
    (hp : Encodes p e) (hq : Encodes q e') :
    Encodes (p >>= fun _ => q) (cat e e') := by
  constructor
  · intro bs h msg hw
    -- the second encoder runs where the first has appended, which is writable again
    obtain ⟨as, cs, rfl, rfl, rfl⟩ := cat_eq_some.mp h
    show EStateM.bind p (fun _ => q) msg = _
    simp only [EStateM.bind, hp.appends as rfl msg hw,
      hq.appends cs rfl _ (writable_append hw as), append_append]
  · intro h msg hw
    show ∃ ex msg', EStateM.bind p (fun _ => q) msg = .error ex msg'
    cases e with
    | none =>
        obtain ⟨ex, msg', hthrow⟩ := hp.throws rfl msg hw
        exact ⟨ex, msg', by simp only [EStateM.bind, hthrow]⟩
    | some as =>
        cases e' with
        | some cs => exact nomatch h
        | none =>
            obtain ⟨ex, msg', hthrow⟩ := hq.throws rfl _ (writable_append hw as)
            exact ⟨ex, msg', by simp only [EStateM.bind, hp.appends as rfl msg hw, hthrow]⟩

/-- An encoder that returned normally had bytes to append, and appended them. -/
theorem Encodes.of_ok {p : Put} {e : Option Bytes} (hp : Encodes p e)
    {msg msg' : MessageStream} (hw : msg.Writable) (h : p msg = .ok () msg') :
    ∃ bs, e = some bs ∧ msg' = msg.append bs := by
  cases e with
  | none =>
      obtain ⟨ex, m, hthrow⟩ := hp.throws rfl msg hw
      rw [h] at hthrow
      exact nomatch hthrow
  | some bs =>
      have hok := hp.appends bs rfl msg hw
      rw [h] at hok
      cases hok
      exact ⟨bs, rfl, rfl⟩

theorem encodes_pure : Encodes (pure ()) (some []) := by
  constructor
  · intro bs h msg hw
    cases h
    rw [append_nil hw]
    rfl
  · intro h
    exact nomatch h

theorem encodes_throw (ex : Exception) : Encodes (throw ex) none := by
  constructor
  · intro bs h
    exact nomatch h
  · intro _ msg _
    exact ⟨ex, msg, rfl⟩

/-! ## The decoder relations -/

/-- Given a good stream whose unread bytes begin with `e`, the decoder `d`
    consumes exactly `e` and returns `a`. -/
def Reads (d : Get α) (e : Option Bytes) (a : α) : Prop :=
  ∀ bs rest (msg : MessageStream), e = some bs → msg.good = true →
    msg.unread = bs ++ rest → d msg = (a, msg.advance bs.length)

theorem reads_pure (a : α) : Reads (pure a) (some []) a := by
  intro bs rest msg h _ _
  cases h
  rw [List.length_nil, advance_zero]
  rfl

/-- Decoders in sequence consume their encodings in sequence. -/
theorem Reads.bind {d : Get α} {f : α → Get β} {e e' : Option Bytes} {a : α} {b : β}
    (hd : Reads d e a) (hf : Reads (f a) e' b) : Reads (d >>= f) (cat e e') b := by
  intro bs rest msg h hg hu
  obtain ⟨as, cs, h1, h2, rfl⟩ := cat_eq_some.mp h
  have hfirst : d msg = (a, msg.advance as.length) :=
    hd as (cs ++ rest) msg h1 hg (by rw [hu, List.append_assoc])
  -- the first decoder stops exactly where the second has to start
  have hunread : (msg.advance as.length).unread = cs ++ rest := by
    rw [unread_advance, hu, List.append_assoc, List.drop_left]
  have hsecond := hf cs rest _ h2 (by rw [good_advance]; exact hg) hunread
  show f (d msg).1 (d msg).2 = _
  rw [hfirst, hsecond, advance_advance, List.length_append]

/-- The last decoder of a sequence, followed by assembling the result. -/
theorem Reads.last {d : Get α} {e : Option Bytes} {a : α} (hd : Reads d e a) (g : α → β) :
    Reads (d >>= fun x => pure (g x)) e (g a) := by
  have h := hd.bind (f := fun x => pure (g x)) (reads_pure (g a))
  rwa [cat_nil] at h

/-! ## Arithmetic of `build` and of the shifts -/

/-- Shifting the upper byte and joining the lower one is adding with a weight. -/
theorem build8_toNat (lower upper : UInt8) :
    (build8 lower upper).toNat = lower.toNat + 256 * upper.toNat := by
  have hl := lower.toNat_lt
  have hu := upper.toNat_lt
  have hor := Nat.shiftLeft_add_eq_or_of_lt (i := 8) (b := lower.toNat) (by omega) upper.toNat
  simp only [build8, UInt16.toNat_or, UInt16.toNat_shiftLeft, UInt8.toNat_toUInt16]
  have hs : (8 : UInt16).toNat % 16 = 8 := rfl
  rw [hs, Nat.mod_eq_of_lt, ← hor]
  all_goals rw [Nat.shiftLeft_eq]; omega

theorem build16_toNat (lower upper : UInt16) :
    (build16 lower upper).toNat = lower.toNat + 65536 * upper.toNat := by
  have hl := lower.toNat_lt
  have hu := upper.toNat_lt
  have hor := Nat.shiftLeft_add_eq_or_of_lt (i := 16) (b := lower.toNat) (by omega) upper.toNat
  simp only [build16, UInt32.toNat_or, UInt32.toNat_shiftLeft, UInt16.toNat_toUInt32]
  have hs : (16 : UInt32).toNat % 32 = 16 := rfl
  rw [hs, Nat.mod_eq_of_lt, ← hor]
  all_goals rw [Nat.shiftLeft_eq]; omega

/-- The same of two 32-bit halves. -/
theorem build32_toNat (lower upper : UInt32) :
    (build32 lower upper).toNat = lower.toNat + 4294967296 * upper.toNat := by
  have hl := lower.toNat_lt
  have hu := upper.toNat_lt
  have hor := Nat.shiftLeft_add_eq_or_of_lt (i := 32) (b := lower.toNat) (by omega) upper.toNat
  simp only [build32, UInt64.toNat_or, UInt64.toNat_shiftLeft, UInt32.toNat_toUInt64]
  have hs : (32 : UInt64).toNat % 64 = 32 := rfl
  rw [hs, Nat.mod_eq_of_lt, ← hor]
  all_goals rw [Nat.shiftLeft_eq]; omega

/-- The two bytes that are put spell the integer. -/
theorem bytes_of_uint16 (v : UInt16) :
    [v.toUInt8] ++ [(v >>> 8).toUInt8] = le 2 v.toNat := by
  have hlow : v.toUInt8 = UInt8.ofNat v.toNat := rfl
  have hhigh : (v >>> 8).toUInt8 = UInt8.ofNat (v.toNat / 256) := by
    apply UInt8.toNat_inj.mp
    simp [Nat.shiftRight_eq_div_pow]
  rw [hlow, hhigh]
  rfl

theorem bytes_of_uint32 (v : UInt32) :
    le 2 v.toUInt16.toNat ++ le 2 (v >>> 16).toUInt16.toNat = le 4 v.toNat := by
  have hlow : v.toUInt16.toNat = v.toNat % 256 ^ 2 := by simp
  have hhigh : (v >>> 16).toUInt16.toNat = v.toNat / 256 ^ 2 := by
    have := v.toNat_lt
    simp [Nat.shiftRight_eq_div_pow]
    omega
  rw [hlow, hhigh, le_mod]
  exact (le_add 2 2 v.toNat).symm

/-- The same for 64 bits. -/
theorem bytes_of_uint64 (v : UInt64) :
    le 4 v.toUInt32.toNat ++ le 4 (v >>> 32).toUInt32.toNat = le 8 v.toNat := by
  have hlow : v.toUInt32.toNat = v.toNat % 256 ^ 4 := by simp
  have hhigh : (v >>> 32).toUInt32.toNat = v.toNat / 256 ^ 4 := by
    have := v.toNat_lt
    simp [Nat.shiftRight_eq_div_pow]
    omega
  rw [hlow, hhigh, le_mod]
  exact (le_add 4 4 v.toNat).symm

/-! ## Integers -/

/-- `put` of a character appends it. -/
theorem encodes_storagePut (v : UInt8) : Encodes (storagePut v) (some [v]) := by
  constructor
  · intro bs h msg hw
    cases h
    show EStateM.Result.ok () { msg with storage := msg.storage.put v } = _
    rw [CharStream.put_of_writable hw]
    rfl
  · intro h
    exact nomatch h

theorem encodes_uint8 (v : UInt8) : Encodes (encodeUInt8 v) (u8.encode v) :=
  encodes_storagePut v

theorem encodes_uint16 (v : UInt16) : Encodes (encodeUInt16 v) (u16.encode v) := by
  rw [u16_encode, ← bytes_of_uint16]
  exact (encodes_storagePut _).seq (encodes_storagePut _)

/-- An encoding of 32 bits is that of the halves, the low one first. -/
theorem u32_encode_halves (v : UInt32) :
    u32.encode v = cat (u16.encode v.toUInt16) (u16.encode (v >>> 16).toUInt16) := by
  rw [u32_encode, u16_encode, u16_encode, cat_some, bytes_of_uint32]

theorem encodes_uint32 (v : UInt32) : Encodes (encodeUInt32 v) (u32.encode v) := by
  rw [u32_encode_halves]
  exact (encodes_uint16 _).seq (encodes_uint16 _)

/-- An encoding of 64 bits is that of the halves, the low one first. -/
theorem u64_encode_halves (v : UInt64) :
    u64.encode v = cat (u32.encode v.toUInt32) (u32.encode (v >>> 32).toUInt32) := by
  rw [u64_encode, u32_encode, u32_encode, cat_some, bytes_of_uint64]

/-- A 64-bit integer is encoded in eight bytes. -/
theorem encodes_uint64 (v : UInt64) : Encodes (encodeUInt64 v) (u64.encode v) := by
  rw [u64_encode_halves]
  exact (encodes_uint32 _).seq (encodes_uint32 _)

/-- A byte is read back. -/
theorem reads_uint8 (v : UInt8) : Reads decodeUInt8 (u8.encode v) v := by
  intro bs rest msg h hg hu
  cases h
  have hget : msg.storage.get = (some v, msg.storage.advance 1) :=
    CharStream.get_cons hg hu
  simp only [decodeUInt8, storageGet, hget]
  rfl

/-- A read of `n` bytes that are there takes them and no indeterminate one. -/
theorem storageRead_of_le {n : Nat} {msg : MessageStream}
    (hg : msg.good = true) (hn : n ≤ msg.unread.length) :
    storageRead n msg = (fun i => msg.unread.getD i.val 0, msg.advance n) := by
  have hread : msg.storage.read n = (msg.unread.take n, msg.storage.advance n) :=
    CharStream.read_le hg hn
  have hlen : (msg.unread.take n).length = n := List.length_take_of_le hn
  simp only [storageRead, hread, hlen, Nat.sub_self, Nat.add_zero]
  refine Prod.ext ?_ rfl
  funext i
  have hi : i.val < msg.unread.length := Nat.lt_of_lt_of_le i.isLt hn
  simp [List.getD_eq_getElem?_getD, List.getElem?_eq_getElem hi]

/-- The decoder builds the value of the two bytes. -/
theorem build8_eq_value (b₀ b₁ : UInt8) : (build8 b₀ b₁).toNat = value [b₀, b₁] := by
  rw [build8_toNat]
  simp only [value]
  omega

theorem build8x4_eq_value (b₀ b₁ b₂ b₃ : UInt8) :
    (build8x4 b₀ b₁ b₂ b₃).toNat = value [b₀, b₁, b₂, b₃] := by
  rw [build8x4, build16_toNat, build8_toNat, build8_toNat]
  simp only [value]
  omega

/-- Two bytes that are there are taken and combined. -/
theorem decodeUInt16_run {msg : MessageStream} {b₀ b₁ : UInt8} {rest : Bytes}
    (hg : msg.good = true) (hu : msg.unread = b₀ :: b₁ :: rest) :
    decodeUInt16 msg = (build8 b₀ b₁, msg.advance 2) := by
  have hread := storageRead_of_le (n := 2) hg (by simp [hu])
  show (build8 ((storageRead 2 msg).1 0) ((storageRead 2 msg).1 1), (storageRead 2 msg).2) = _
  rw [hread, hu]
  rfl

/-- Four bytes that are there are taken and combined. -/
theorem decodeUInt32_run {msg : MessageStream} {b₀ b₁ b₂ b₃ : UInt8} {rest : Bytes}
    (hg : msg.good = true) (hu : msg.unread = b₀ :: b₁ :: b₂ :: b₃ :: rest) :
    decodeUInt32 msg = (build8x4 b₀ b₁ b₂ b₃, msg.advance 4) := by
  have hread := storageRead_of_le (n := 4) hg (by simp [hu])
  show (build8x4 ((storageRead 4 msg).1 0) ((storageRead 4 msg).1 1)
    ((storageRead 4 msg).1 2) ((storageRead 4 msg).1 3), (storageRead 4 msg).2) = _
  rw [hread, hu]
  rfl

/-- A 16-bit integer is read back. -/
theorem reads_uint16 (v : UInt16) : Reads decodeUInt16 (u16.encode v) v := by
  intro bs rest msg h hg hu
  rw [u16_encode] at h
  cases h
  rw [decodeUInt16_run hg hu]
  have hv : build8 (UInt8.ofNat v.toNat) (UInt8.ofNat (v.toNat / 256)) = v := by
    apply UInt16.toNat_inj.mp
    rw [build8_eq_value]
    exact value_le (k := 2) v.toNat_lt
  rw [hv]
  rfl

theorem reads_uint32 (v : UInt32) : Reads decodeUInt32 (u32.encode v) v := by
  intro bs rest msg h hg hu
  rw [u32_encode] at h
  cases h
  rw [decodeUInt32_run hg hu]
  have hv : build8x4 (UInt8.ofNat v.toNat) (UInt8.ofNat (v.toNat / 256))
      (UInt8.ofNat (v.toNat / 256 / 256)) (UInt8.ofNat (v.toNat / 256 / 256 / 256)) = v := by
    apply UInt32.toNat_inj.mp
    rw [build8x4_eq_value]
    exact value_le (k := 4) v.toNat_lt
  rw [hv]
  rfl

/-- The halves make up the integer they were taken from. -/
theorem build32_halves (v : UInt64) : build32 v.toUInt32 (v >>> 32).toUInt32 = v := by
  apply UInt64.toNat_inj.mp
  have hv := v.toNat_lt
  rw [build32_toNat]
  simp [Nat.shiftRight_eq_div_pow]
  omega

/-- The low half is found again. -/
theorem toUInt32_build32 (lower upper : UInt32) : (build32 lower upper).toUInt32 = lower := by
  have hl := lower.toNat_lt
  apply UInt32.toNat_inj.mp
  rw [UInt64.toNat_toUInt32, build32_toNat]
  omega

theorem shiftRight_build32 (lower upper : UInt32) :
    (build32 lower upper >>> 32).toUInt32 = upper := by
  have hl := lower.toNat_lt
  have hu := upper.toNat_lt
  apply UInt32.toNat_inj.mp
  simp [build32_toNat, Nat.shiftRight_eq_div_pow]
  omega

/-- Two 32-bit halves, low half first, are the encoding of their combination. -/
theorem u64_encode_build32 (lower upper : UInt32) :
    u64.encode (build32 lower upper) = cat (u32.encode lower) (u32.encode upper) := by
  rw [u64_encode_halves, toUInt32_build32, shiftRight_build32]

/-- What a 64-bit decode makes of the encoding of `v`: evaluated right first,
    the halves change places. -/
def reread (order : ArgOrder) (v : UInt64) : UInt64 :=
  match order with
  | .leftFirst  => v
  | .rightFirst => build32 (v >>> 32).toUInt32 v.toUInt32

/-- A 64-bit integer is read back, perhaps with its halves exchanged. -/
theorem reads_uint64 (order : ArgOrder) (v : UInt64) :
    Reads (decodeUInt64 order) (u64.encode v) (reread order v) := by
  rw [u64_encode_halves]
  cases order with
  | leftFirst =>
      have h := (reads_uint32 v.toUInt32).bind
        (f := fun lower => decodeUInt32 >>= fun upper => pure (build32 lower upper))
        ((reads_uint32 (v >>> 32).toUInt32).last (fun upper => build32 v.toUInt32 upper))
      rwa [build32_halves] at h
  | rightFirst =>
      -- the low half is on the stream first and becomes the upper operand
      exact (reads_uint32 v.toUInt32).bind
        ((reads_uint32 (v >>> 32).toUInt32).last (fun lower => build32 lower v.toUInt32))

theorem exists_cons_cons {bs : Bytes} (h : 2 ≤ bs.length) :
    ∃ b₀ b₁ rest, bs = b₀ :: b₁ :: rest := by
  match bs, h with
  | b₀ :: b₁ :: rest, _ => exact ⟨b₀, b₁, rest, rfl⟩

/-! ## Counted elements -/

/-- A `std::string` on the wire: 16-bit length, then the bytes. -/
def stringFormat : Format UInt8 Bytes := Format.counted (uint 2) u8

/-- A `std::vector<T>` on the wire: 16-bit count, then the elements. -/
def vectorFormat (f : Format UInt8 α) : Format UInt8 (List α) := Format.counted (uint 2) f

/-- Raw data on the wire: 32-bit count, then the bytes. -/
def dataFormat : Format UInt8 Bytes := Format.counted (uint 4) u8

/-- Characters one by one are the string. -/
theorem encodeEach_u8 (bs : Bytes) : encodeEach u8.encode bs = some bs := by
  induction bs with
  | nil => rfl
  | cons b bs ih => rw [encodeEach, ih, u8_encode, cat_some]; rfl

theorem stringFormat_encode {s : Bytes} (h : s.length < 65536) :
    stringFormat.encode s = some (le 2 s.length ++ s) := by
  show cat ((uint 2).encode s.length) (encodeEach u8.encode s) = _
  rw [uint_encode h, encodeEach_u8, cat_some]

/-- A string is encoded behind its length, if that fits. -/
theorem length_of_string {s bs : Bytes} (h : stringFormat.encode s = some bs) :
    s.length < 65536 ∧ bs.length = 2 + s.length := by
  obtain ⟨count, cs, hcount, -, -⟩ := cat_eq_some.mp h
  have hfits : s.length < 65536 := lt_of_uint_encode hcount
  rw [stringFormat_encode hfits] at h
  rw [← Option.some.inj h, List.length_append, length_le]
  exact ⟨hfits, rfl⟩

/-- Which counts survive 16 bits. -/
theorem ofNat16_toNat {n : Nat} : (UInt16.ofNat n).toNat = n ↔ n < 65536 := by
  rw [UInt16.toNat_ofNat']
  omega

theorem ofNat32_toNat {n : Nat} : (UInt32.ofNat n).toNat = n ↔ n < 4294967296 := by
  rw [UInt32.toNat_ofNat']
  omega

/-- A count that fits is encoded as its two bytes. -/
theorem u16_encode_ofNat {n : Nat} (h : n < 65536) :
    u16.encode (UInt16.ofNat n) = (uint 2).encode n := by
  rw [u16_encode, ofNat16_toNat.mpr h, uint_encode h]

/-- A count that fits is encoded as its four bytes. -/
theorem u32_encode_ofNat {n : Nat} (h : n < 4294967296) :
    u32.encode (UInt32.ofNat n) = (uint 4).encode n := by
  rw [u32_encode, ofNat32_toNat.mpr h, uint_encode h]

/-- The loop over the elements encodes them one by one. -/
theorem encodes_elements {p : α → Put} {e : α → Option Bytes} (as : List α)
    (h : ∀ a ∈ as, Encodes (p a) (e a)) :
    Encodes (encodeElements p as) (encodeEach e as) := by
  induction as with
  | nil => exact encodes_pure
  | cons a as ih =>
      exact (h a List.mem_cons_self).seq (ih fun b hb => h b (List.mem_cons_of_mem a hb))

/-- A count that is checked against its own width before it goes out: the
    check fails exactly where the count has no encoding. -/
theorem encodes_checked {k n len : Nat} {p : Put} {e : Option Bytes} (ex : Exception)
    (hlen : len = n ↔ n < 256 ^ k)
    (hp : n < 256 ^ k → Encodes p (cat ((uint k).encode n) e)) :
    Encodes (if len ≠ n then throw ex else p) (cat ((uint k).encode n) e) := by
  by_cases hn : n < 256 ^ k
  · rw [if_neg (not_not.mpr (hlen.mpr hn))]
    exact hp hn
  · rw [if_pos (fun h => hn (hlen.mp h)), uint_encode_none hn, cat_none_left]
    exact encodes_throw ex

/-- A vector is encoded as its format has it. -/
theorem encodes_vector {p : α → Put} {f : Format UInt8 α}
    (h : ∀ a, Encodes (p a) (f.encode a)) (as : List α) :
    Encodes (encodeVector p as) ((vectorFormat f).encode as) := by
  refine encodes_checked _ ofNat16_toNat fun hn => ?_
  have hseq := (encodes_uint16 (UInt16.ofNat as.length)).seq (encodes_elements as fun a _ => h a)
  rwa [u16_encode_ofNat hn] at hseq

/-- A string is encoded as its format has it. -/
theorem encodes_string (s : Bytes) : Encodes (encodeString s) (stringFormat.encode s) := by
  refine encodes_checked _ ofNat16_toNat fun hn => ?_
  have hseq := (encodes_uint16 (UInt16.ofNat s.length)).seq
    (encodes_elements s fun c _ => encodes_uint8 c)
  rwa [u16_encode_ofNat hn] at hseq

/-- Reading a count back gives a value that converts to the count. -/
theorem reads_count16 (n : Nat) : Reads decodeUInt16 ((uint 2).encode n) (UInt16.ofNat n) := by
  intro bs rest msg h hg hu
  have hn : n < 65536 := lt_of_uint_encode h
  rw [← u16_encode_ofNat hn] at h
  exact reads_uint16 (UInt16.ofNat n) bs rest msg h hg hu

theorem reads_count32 (n : Nat) : Reads decodeUInt32 ((uint 4).encode n) (UInt32.ofNat n) := by
  intro bs rest msg h hg hu
  have hn : n < 4294967296 := lt_of_uint_encode h
  rw [← u32_encode_ofNat hn] at h
  exact reads_uint32 (UInt32.ofNat n) bs rest msg h hg hu

/-- A count that has an encoding may be used where its own width is assumed. -/
theorem Reads.of_encodes {d : Get α} {e e' : Option Bytes} {a : α}
    (h : e.isSome → Reads d (cat e e') a) : Reads d (cat e e') a := by
  intro bs rest msg hbs
  cases e with
  | none => exact nomatch hbs
  | some as => exact h rfl bs rest msg hbs

/-- Of a string as much is kept as the old one has room for. -/
theorem reads_string (data s : Bytes) :
    Reads (decodeString data) (stringFormat.encode s) (storeAt data s) := by
  refine Reads.of_encodes fun hsome => ?_
  have hn : s.length < 65536 := lt_of_uint_encode (Option.eq_some_of_isSome hsome)
  refine (reads_count16 s.length).bind ?_
  intro bs rest msg h hg hu
  rw [encodeEach_u8] at h
  cases h
  -- all of `s` is taken off the stream, and `storeAt` keeps what `data` has room for
  have hread : msg.storage.read s.length = (s, msg.storage.advance s.length) :=
    CharStream.read_append hg hu
  simp only [ofNat16_toNat.mpr hn, hread]
  rfl

/-- The loop of the vector decoder, over the encodings of `as`: each new
    element is decoded into a fresh one and joins the end. -/
theorem reads_elements {new : α} {d : α → Get α} {e : α → Option Bytes} {g : α → α}
    (h : ∀ a, Reads (d new) (e a) (g a)) (as collec : List α) :
    Reads (decodeElements new d as.length collec) (encodeEach e as) (collec ++ as.map g) := by
  induction as generalizing collec with
  | nil =>
      rw [List.map_nil, List.append_nil]
      exact reads_pure collec
  | cons a as ih =>
      -- the elements decoded so far are in `collec`, hence general in the induction
      have hstep := (h a).bind
        (f := fun back => decodeElements new d as.length (collec ++ [back]))
        (ih (collec ++ [g a]))
      rw [List.append_assoc] at hstep
      exact hstep

/-- The elements of a vector join those that were there. -/
theorem reads_vector {new : α} {d : α → Get α} {f : Format UInt8 α} {g : α → α}
    (h : ∀ a, Reads (d new) (f.encode a) (g a)) (as collec : List α) :
    Reads (decodeVector new d collec) ((vectorFormat f).encode as) (collec ++ as.map g) := by
  refine Reads.of_encodes fun hsome => ?_
  have hn : as.length < 65536 := lt_of_uint_encode (Option.eq_some_of_isSome hsome)
  refine (reads_count16 as.length).bind ?_
  rw [ofNat16_toNat.mpr hn]
  exact reads_elements h as collec

end KzrPrimitive
