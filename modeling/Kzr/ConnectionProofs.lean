import Kzr.PrimitiveProofs

/-! # Connections — frames in front of the message stream

    A `Connection` writes the contents of a message stream as one frame, a
    4-byte little-endian count of all its bytes and then the contents, and
    reads a frame back with two calls to the subclass: one for the count, one
    for the rest.  What the subclass does is a parameter: a state of the
    outside world and the two calls on it.

    Writing is right as far as the count fits 32 bits.  Reading never is: the
    second call has to report as many bytes as the count says in one check, and
    four fewer in the next, so no answer of any subclass satisfies both. -/

namespace KzrConnection

open WireFormat LittleEndian KzrMessageStream KzrPrimitive

variable {σ : Type}

/-- The calls a subclass provides.  `rawRead` is handed a string and may change
    it; both report a byte count. -/
structure Connection (σ : Type) where
  rawWrite : Bytes → σ → UInt64 × σ
  rawRead  : Bytes → σ → (UInt64 × Bytes) × σ

/-- `Connection::write`. -/
def Connection.write (c : Connection σ) (msg : MessageStream) : EStateM Exception σ Unit :=
  fun world =>
    let contents := msg.str
    let len := contents.length
    if len ≠ (UInt32.ofNat len).toNat then
      .error ⟨"length of the message is too long to write out!"⟩ world
    else
      let actualLen := UInt32.ofNat len + 4
      let newStr := [actualLen.toUInt8, (actualLen >>> 8).toUInt8, (actualLen >>> 16).toUInt8,
        (actualLen >>> 24).toUInt8] ++ contents
      match c.rawWrite newStr world with
      | (bytesWritten, world) =>
          if bytesWritten ≠ actualLen.toUInt64 then
            .error ⟨"Only wrote " ++ toString bytesWritten ++ "bytes of a "
              ++ toString actualLen ++ " bytes long message!"⟩ world
          else .ok () world

/-- `Connection::read`.  Both strings are built from a count and a character in
    that order, so each holds 32 characters, the second argument repeated. -/
def Connection.read (c : Connection σ) : EStateM Exception (σ × MessageStream) Unit :=
  fun (world, msg) =>
    match c.rawRead (List.replicate 32 4) world with
    | ((bytesRead, sizeAcquire), world) =>
        if bytesRead ≠ 4 then
          .error ⟨"Expected to read 4 bytes but only read " ++ toString bytesRead ++ "!"⟩
            (world, msg)
        else
          let messageSize := build8x4 (sizeAcquire.getD 0 0) (sizeAcquire.getD 1 0)
            (sizeAcquire.getD 2 0) (sizeAcquire.getD 3 0)
          if messageSize < 4 then
            .error ⟨"Expected at least 4 bytes as the size of the message!"⟩ (world, msg)
          else
            let correctedMessageSize := messageSize - 4
            match c.rawRead (List.replicate 32 correctedMessageSize.toUInt8) world with
            | ((bytesRead2, storage), world) =>
                -- the string was sized for `correctedMessageSize` bytes
                if bytesRead2 ≠ messageSize.toUInt64 then
                  .error ⟨"only able to read " ++ toString bytesRead2 ++ "/"
                    ++ toString messageSize ++ " bytes!"⟩ (world, msg)
                else if bytesRead2 + bytesRead ≠ messageSize.toUInt64 then
                  .error ⟨"Not enough bytes read!"⟩ (world, msg)
                else
                  match KzrMessageStream.write storage msg with
                  | .ok () msg     => .ok () (world, msg)
                  | .error ex msg => .error ex (world, msg)

/-! ## The two directions -/

theorem add_four_ne (n : UInt64) : n + 4 ≠ n := by
  intro h
  have hnat := congrArg UInt64.toNat h
  have hlt := n.toNat_lt
  have hfour : (4 : UInt64).toNat = 4 := rfl
  rw [UInt64.toNat_add] at hnat
  omega

/-- What a read does to the world: one call, and a second one only when the
    first reported four bytes.  Whatever the subclass answers, one of the checks
    fails. -/
theorem read_cases (c : Connection σ) (world : σ) (msg : MessageStream) :
    ∃ ex world', c.read (world, msg) = .error ex (world', msg)
      ∧ (world' = (c.rawRead (List.replicate 32 4) world).2
        ∨ (c.rawRead (List.replicate 32 4) world).1.1 = 4
          ∧ ∃ data, world' = (c.rawRead data (c.rawRead (List.replicate 32 4) world).2).2) := by
  rcases h1 : c.rawRead (List.replicate 32 4) world with ⟨⟨bytesRead, sizeAcquire⟩, world1⟩
  simp only [Connection.read, h1]
  by_cases hfour : bytesRead = 4
  · rw [if_neg (not_not.mpr hfour), hfour]
    generalize build8x4 (sizeAcquire.getD 0 0) (sizeAcquire.getD 1 0) (sizeAcquire.getD 2 0)
      (sizeAcquire.getD 3 0) = messageSize
    by_cases hsmall : messageSize < 4
    · rw [if_pos hsmall]
      exact ⟨_, _, rfl, Or.inl rfl⟩
    · rcases h2 : c.rawRead (List.replicate 32 (messageSize - 4).toUInt8) world1
        with ⟨⟨bytesRead2, storage⟩, world2⟩
      have hcalls : world2 = (c.rawRead (List.replicate 32 (messageSize - 4).toUInt8) world1).2 :=
        (congrArg Prod.snd h2).symm
      rw [if_neg hsmall]
      simp only [h2]
      by_cases hall : bytesRead2 = messageSize.toUInt64
      · -- the count read is the count announced, so it is not that less four
        rw [if_neg (not_not.mpr hall), hall, if_pos (add_four_ne _)]
        exact ⟨_, _, rfl, Or.inr ⟨trivial, _, hcalls⟩⟩
      · rw [if_pos hall]
        exact ⟨_, _, rfl, Or.inr ⟨trivial, _, hcalls⟩⟩
  · rw [if_pos hfour]
    exact ⟨_, _, rfl, Or.inl rfl⟩

/-- **READING NEVER SUCCEEDS**, whatever the subclass answers. -/
theorem read_throws (c : Connection σ) (world : σ) (msg : MessageStream) :
    ∃ ex world', c.read (world, msg) = .error ex (world', msg) := by
  obtain ⟨ex, world', hthrow, -⟩ := read_cases c world msg
  exact ⟨ex, world', hthrow⟩

/-- A frame: the count of all its bytes, then the contents. -/
def frame (contents : Bytes) : Bytes := le 4 (contents.length + 4) ++ contents

/-- The four bytes put in front spell the count. -/
theorem bytes_of_actualLen (n : UInt32) :
    [n.toUInt8, (n >>> 8).toUInt8, (n >>> 16).toUInt8, (n >>> 24).toUInt8] = le 4 n.toNat := by
  have h0 : n.toUInt8 = UInt8.ofNat n.toNat := rfl
  have h1 : (n >>> 8).toUInt8 = UInt8.ofNat (n.toNat / 256) := by
    apply UInt8.toNat_inj.mp
    simp [Nat.shiftRight_eq_div_pow]
  have h2 : (n >>> 16).toUInt8 = UInt8.ofNat (n.toNat / 256 / 256) := by
    apply UInt8.toNat_inj.mp
    simp [Nat.shiftRight_eq_div_pow, Nat.div_div_eq_div_mul]
  have h3 : (n >>> 24).toUInt8 = UInt8.ofNat (n.toNat / 256 / 256 / 256) := by
    apply UInt8.toNat_inj.mp
    simp [Nat.shiftRight_eq_div_pow, Nat.div_div_eq_div_mul]
  rw [h0, h1, h2, h3]
  rfl

theorem length_frame (contents : Bytes) : (frame contents).length = contents.length + 4 := by
  rw [frame, List.length_append, length_le, Nat.add_comm]

/-- Contents whose length does not fit 32 bits are refused before any call. -/
theorem write_of_long (c : Connection σ) {msg : MessageStream}
    (hlen : 4294967296 ≤ msg.str.length) (world : σ) :
    ∃ ex, c.write msg world = .error ex world := by
  have hlen32 : (UInt32.ofNat msg.str.length).toNat ≠ msg.str.length := by
    rw [ne_eq, ofNat32_toNat]
    omega
  refine ⟨⟨"length of the message is too long to write out!"⟩, ?_⟩
  simp only [Connection.write]
  rw [if_pos hlen32.symm]

/-- **WRITING HANDS OVER ONE FRAME**, and succeeds when the count reported is the
    count put in front, which is 32 bits wide. -/
theorem write_of_short (c : Connection σ) {msg : MessageStream}
    (hlen : msg.str.length < 4294967296) {world world' : σ} {bytesWritten : UInt64}
    (hcall : c.rawWrite (frame msg.str) world = (bytesWritten, world')) :
    if bytesWritten.toNat = (msg.str.length + 4) % 4294967296 then
      c.write msg world = .ok () world'
    else ∃ ex, c.write msg world = .error ex world' := by
  have hlen32 : (UInt32.ofNat msg.str.length).toNat = msg.str.length := ofNat32_toNat.mpr hlen
  have hactual : (UInt32.ofNat msg.str.length + 4).toNat
      = (msg.str.length + 4) % 4294967296 := by
    rw [UInt32.toNat_add, hlen32]
    rfl
  -- four bytes spell the count modulo 2 ^ 32, whether or not it fits
  have hprefix : le 4 ((msg.str.length + 4) % 4294967296) ++ msg.str = frame msg.str := by
    exact congrArg (· ++ msg.str) (le_mod 4 (msg.str.length + 4))
  have hcount : bytesWritten ≠ (UInt32.ofNat msg.str.length + 4).toUInt64
      ↔ ¬ bytesWritten.toNat = (msg.str.length + 4) % 4294967296 := by
    rw [← hactual, ← UInt32.toNat_toUInt64, UInt64.toNat_inj]
  simp only [Connection.write]
  rw [if_neg (not_not.mpr hlen32.symm), bytes_of_actualLen, hactual, hprefix]
  simp only [hcall]
  by_cases hn : bytesWritten.toNat = (msg.str.length + 4) % 4294967296
  · rw [if_pos hn, if_neg (fun h => hcount.mp h hn)]
  · rw [if_neg hn, if_pos (hcount.mpr hn)]
    exact ⟨_, rfl⟩

theorem write_of_taken (c : Connection σ) {msg : MessageStream}
    (hlen : msg.str.length + 4 < 4294967296) {world world' : σ}
    (htaken : c.rawWrite (frame msg.str) world
      = (UInt64.ofNat (frame msg.str).length, world')) :
    c.write msg world = .ok () world' := by
  have hcount : (UInt64.ofNat (frame msg.str).length).toNat
      = (msg.str.length + 4) % 4294967296 := by
    have hsize : UInt64.size = 18446744073709551616 := rfl
    rw [length_frame, Nat.mod_eq_of_lt hlen]
    exact UInt64.toNat_ofNat_of_lt' (by omega)
  have hwrite := write_of_short c (by omega) htaken
  rwa [if_pos hcount] at hwrite

/-! ## The calls of a write -/

/-- A call of `rawWrite`: the bytes handed over, and the count reported. -/
structure Call where
  data     : Bytes
  reported : UInt64

/-- The same subclass, with a record of the calls of `rawWrite`. -/
def recording (c : Connection σ) : Connection (σ × List Call) where
  rawWrite := fun data (world, calls) =>
    match c.rawWrite data world with
    | (n, world) => (n, (world, calls ++ [⟨data, n⟩]))
  rawRead := fun data (world, calls) =>
    match c.rawRead data world with
    | (r, world) => (r, (world, calls))

/-- What is said of a write: every call is handed the count of all its bytes and
    the contents, there is none when the count does not fit, and the write
    succeeds exactly when a call reported all its bytes. -/
def WritesExactly (c : Connection σ) (world : σ) (msg : MessageStream) : Prop :=
  let result := (recording c).write msg (world, [])
  let calls := match result with
    | .ok () s   => s.2
    | .error _ s => s.2
  (∀ call ∈ calls, ∃ size, call.data = size ++ msg.str ∧ size.length = 4
      ∧ value size = call.data.length)
    ∧ (4294967296 ≤ msg.str.length + 4 → calls = [] ∧ ∃ ex s, result = .error ex s)
    ∧ ((∃ s, result = .ok () s) ↔ ∃ call ∈ calls, call.reported.toNat = call.data.length)

/-- **WHEN WRITING IS EXACT**: unless the contents fit 32 bits and the count does
    not. -/
theorem writes_exactly_iff (c : Connection σ) (world : σ) (msg : MessageStream) :
    WritesExactly c world msg
      ↔ msg.str.length + 4 < 4294967296 ∨ 4294967296 ≤ msg.str.length := by
  by_cases hlong : 4294967296 ≤ msg.str.length
  · obtain ⟨ex, hthrow⟩ := write_of_long (recording c) hlong (world, [])
    refine iff_of_true ?_ (Or.inr hlong)
    simp only [WritesExactly, hthrow]
    simp
  · rcases hcall : c.rawWrite (frame msg.str) world with ⟨n, world'⟩
    have hrecord : (recording c).rawWrite (frame msg.str) (world, [])
        = (n, (world', [⟨frame msg.str, n⟩])) := by
      simp only [recording, hcall, List.nil_append]
    have hwrite := write_of_short (recording c) (by omega) hrecord
    have hsize : (frame msg.str).length = msg.str.length + 4 := length_frame msg.str
    by_cases hfit : msg.str.length + 4 < 4294967296
    · refine iff_of_true ?_ (Or.inl hfit)
      have hdata : ∃ size, frame msg.str = size ++ msg.str ∧ size.length = 4
          ∧ value size = (frame msg.str).length :=
        ⟨_, rfl, length_le 4 _, by rw [value_le (by omega), hsize]⟩
      rw [Nat.mod_eq_of_lt hfit, ← hsize] at hwrite
      by_cases hn : n.toNat = (frame msg.str).length
      · rw [if_pos hn] at hwrite
        simp only [WritesExactly, hwrite]
        exact ⟨by simpa using hdata, fun h => absurd h (by omega), by simp [hn]⟩
      · rw [if_neg hn] at hwrite
        obtain ⟨ex, hthrow⟩ := hwrite
        simp only [WritesExactly, hthrow]
        exact ⟨by simpa using hdata, fun h => absurd h (by omega), by simp [hn]⟩
    · -- the count wraps around, and the call is made all the same
      refine iff_of_false ?_ (by omega)
      rintro ⟨-, hnone, -⟩
      obtain ⟨hcalls, -⟩ := hnone (by omega)
      by_cases hn : n.toNat = (msg.str.length + 4) % 4294967296
      · rw [if_pos hn] at hwrite
        rw [hwrite] at hcalls
        exact nomatch hcalls
      · rw [if_neg hn] at hwrite
        obtain ⟨ex, hthrow⟩ := hwrite
        rw [hthrow] at hcalls
        exact nomatch hcalls

/-- A subclass that takes every byte it is handed. -/
def taking : Connection Unit where
  rawWrite := fun data _ => (UInt64.ofNat data.length, ())
  rawRead := fun data _ => ((0, data), ())

/-- Contents of 2 ^ 32 - 4 bytes go out as a frame of no bytes, and the answer
    that all of it was taken is an error. -/
theorem write_wraps_around :
    let msg := (MessageStream.new fun _ => 0).setStr (List.replicate 4294967292 0)
    (∃ ex, (recording taking).write msg ((), [])
        = .error ex ((), [⟨[0, 0, 0, 0] ++ msg.str, 4294967296⟩]))
      ∧ ([0, 0, 0, 0] ++ msg.str).length = 4294967296 ∧ ¬ WritesExactly taking () msg := by
  intro msg
  have hlen : msg.str.length = 4294967292 := List.length_replicate
  -- from here on the length is all that matters
  clear_value msg
  have hframe : frame msg.str = [0, 0, 0, 0] ++ msg.str := by
    have hsize : le 4 (4294967292 + 4) = [0, 0, 0, 0] := by decide
    rw [frame, hlen, hsize]
  have hcall : (recording taking).rawWrite (frame msg.str) ((), [])
      = (4294967296, ((), [⟨[0, 0, 0, 0] ++ msg.str, 4294967296⟩])) := by
    show (UInt64.ofNat (frame msg.str).length, _) = _
    rw [length_frame, hframe, hlen]
    rfl
  have hwrite := write_of_short (recording taking) (by omega) hcall
  rw [hlen, if_neg (by decide)] at hwrite
  refine ⟨hwrite, by rw [List.length_append, hlen]; rfl, ?_⟩
  obtain ⟨ex, hthrow⟩ := hwrite
  rintro ⟨-, hnone, -⟩
  obtain ⟨hcalls, -⟩ := hnone (by omega)
  rw [hthrow] at hcalls
  exact nomatch hcalls

/-! ## A reliable channel -/

/-- What is on its way, and how many payload bytes the next read delivers when
    it is the second of its pair. -/
structure Channel where
  pending : Bytes
  payload : Option Nat := none

/-- Accepts and reports every byte; delivers four bytes of a frame at the start
    of the string and then, in its place, the payload they announce. -/
def reliable : Connection Channel where
  rawWrite := fun data ch =>
    (UInt64.ofNat data.length, { ch with pending := ch.pending ++ data })
  rawRead := fun data ch =>
    match ch.payload with
    | none   =>
        ((4, ch.pending.take 4 ++ data.drop 4),
          { pending := ch.pending.drop 4, payload := some (value (ch.pending.take 4) - 4) })
    | some n =>
        ((UInt64.ofNat n, ch.pending.take n), { pending := ch.pending.drop n, payload := none })

/-- Write one stream after the other. -/
def Connection.writeEach (c : Connection σ) : List MessageStream → EStateM Exception σ Unit
  | []          => pure ()
  | msg :: msgs => do
      c.write msg
      c.writeEach msgs

/-- Read into `n` new streams, one after the other. -/
def Connection.readEach (c : Connection σ) (indeterminate : Nat → UInt8) :
    Nat → EStateM Exception σ (List MessageStream)
  | 0     => pure []
  | n + 1 => fun world =>
      match c.read (world, .new indeterminate) with
      | .ok () (world, msg)    =>
          match c.readEach indeterminate n world with
          | .ok msgs world   => .ok (msg :: msgs) world
          | .error ex world  => .error ex world
      | .error ex (world, _)   => .error ex world

/-- What was written is what is read. -/
def RoundTrips (indeterminate : Nat → UInt8) (msgs : List MessageStream) : Prop :=
  ∃ ch ch' back, reliable.writeEach msgs { pending := [] } = .ok () ch
    ∧ reliable.readEach indeterminate msgs.length ch = .ok back ch'
    ∧ back.map MessageStream.str = msgs.map MessageStream.str

/-- On this channel every write succeeds and the frames queue up. -/
theorem reliable_writeEach {msgs : List MessageStream}
    (hlen : ∀ msg ∈ msgs, msg.str.length ≤ 4294967291) (sent : Bytes) :
    reliable.writeEach msgs { pending := sent }
      = .ok () { pending := sent ++ msgs.flatMap fun msg => frame msg.str } := by
  induction msgs generalizing sent with
  | nil =>
      rw [List.flatMap_nil, List.append_nil]
      rfl
  | cons msg msgs ih =>
      have hmsg := hlen msg List.mem_cons_self
      have hfirst : reliable.write msg { pending := sent }
          = .ok () { pending := sent ++ frame msg.str } :=
        write_of_taken reliable (by omega) rfl
      show EStateM.bind (reliable.write msg) (fun _ => reliable.writeEach msgs) _ = _
      simp only [EStateM.bind, hfirst]
      rw [ih (fun m hm => hlen m (List.mem_cons_of_mem msg hm)), List.flatMap_cons,
        List.append_assoc]

theorem readEach_throws (c : Connection σ) (indeterminate : Nat → UInt8) (n : Nat) (world : σ) :
    ∃ ex world', c.readEach indeterminate (n + 1) world = .error ex world' := by
  obtain ⟨ex, world', hthrow⟩ := read_throws c world (.new indeterminate)
  exact ⟨ex, world', by simp only [Connection.readEach, hthrow]⟩

/-- **FRAMES DO NOT COME BACK**: streams of any contents that fit a frame are
    read back from a reliable channel exactly when there are none. -/
theorem frames_roundTrip_iff (indeterminate : Nat → UInt8) {msgs : List MessageStream}
    (hlen : ∀ msg ∈ msgs, msg.str.length ≤ 4294967291) :
    RoundTrips indeterminate msgs ↔ msgs = [] := by
  constructor
  · rintro ⟨ch, ch', back, -, hread, -⟩
    cases msgs with
    | nil => rfl
    | cons msg msgs =>
        obtain ⟨ex, world', hthrow⟩ := readEach_throws reliable indeterminate msgs.length ch
        rw [List.length_cons, hthrow] at hread
        exact nomatch hread
  · rintro rfl
    exact ⟨_, _, [], reliable_writeEach hlen [], rfl, rfl⟩

/-- No frame comes back, and none is missed where none was sent. -/
theorem frames_roundTrip_none_one :
    RoundTrips (fun _ => 0) [] ∧ ¬ RoundTrips (fun _ => 0) [(MessageStream.new fun _ => 0)] :=
  ⟨(frames_roundTrip_iff (fun _ => 0) (List.forall_mem_nil _)).mpr rfl,
    fun h => nomatch (frames_roundTrip_iff (fun _ => 0)
      (List.forall_mem_singleton.mpr (Nat.zero_le _))).mp h⟩

/-- One empty message is written as a frame of four bytes and not read back. -/
theorem frames_empty_message_lost :
    reliable.writeEach [.new fun _ => 0] { pending := [] }
        = .ok () { pending := [4, 0, 0, 0] }
      ∧ ¬ RoundTrips (fun _ => 0) [.new fun _ => 0] := by
  refine ⟨rfl, ?_⟩
  rintro ⟨ch, ch', back, -, hread, -⟩
  obtain ⟨ex, world', hthrow⟩ := readEach_throws reliable (fun _ => 0) 0 ch
  rw [List.length_singleton, hthrow] at hread
  exact nomatch hread

end KzrConnection
