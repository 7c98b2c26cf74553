import Kzr.FileHandleConnectionProofs
import Kzr.FramingProofs

/-! # What the peers receive

    `Connection::write` hands one frame to one `::write`, and that may take any
    part of it, or fail.  The write throws when fewer bytes were taken than the
    frame has, and says how many; what was taken has gone out all the same.

    Connections may be copies of one another and share a descriptor, others have
    descriptors of their own, and their writes and reads may come in any order.
    The peer at the other end of a descriptor takes frames off its end.  It is
    shown to get exactly the contents whose write returned, and nothing left over,
    as long as no write on this descriptor failed after some of its bytes had gone
    out; and from an application that stops at its first exception, all that went
    before.  Contents whose count does not fit the four bytes in front of them are
    the one thing excluded. -/

namespace KzrSender

open WireFormat LittleEndian Framing Runs KzrMessageStream KzrPrimitive KzrConnection
open KzrFileHandleConnection

variable {σ : Type}

/-! ## Frames -/

/-- `size[4]` counts itself and what comes after it. -/
def encodeFrame (contents : Bytes) : Option Bytes :=
  if contents.length + 4 < 4294967296 then some (frame contents) else none

/-- The contents of the frame in front, and what is behind it. -/
def decodeFrame (bs : Bytes) : Option (Bytes × Bytes) :=
  if 4 ≤ value (bs.take 4) ∧ value (bs.take 4) ≤ bs.length then
    some ((bs.take (value (bs.take 4))).drop 4, bs.drop (value (bs.take 4)))
  else none

theorem encodeFrame_eq_some {contents bs : Bytes} :
    encodeFrame contents = some bs ↔ contents.length + 4 < 4294967296 ∧ frame contents = bs := by
  rw [encodeFrame]
  by_cases hlen : contents.length + 4 < 4294967296
  · rw [if_pos hlen, Option.some.injEq, and_iff_right hlen]
  · rw [if_neg hlen]
    exact iff_of_false (Option.some_ne_none bs).symm fun h => hlen h.1

theorem decodeFrame_encodeFrame {contents bs : Bytes} (h : encodeFrame contents = some bs)
    (rest : Bytes) : decodeFrame (bs ++ rest) = some (contents, rest) := by
  obtain ⟨hlen, rfl⟩ := encodeFrame_eq_some.mp h
  have htake : (frame contents ++ rest).take 4 = le 4 (contents.length + 4) := by
    rw [frame, List.append_assoc, List.take_left' (length_le 4 _)]
  have hsize : value ((frame contents ++ rest).take 4) = (frame contents).length := by
    rw [htake, value_le (by omega), length_frame]
  have hwhole : 4 ≤ (frame contents).length
      ∧ (frame contents).length ≤ (frame contents ++ rest).length := by
    rw [List.length_append, length_frame]
    omega
  rw [decodeFrame, hsize, if_pos hwhole, List.take_left, List.drop_left, frame,
    List.drop_left' (length_le 4 _)]

/-- What is found in front was a frame. -/
theorem encodeFrame_decodeFrame {bs contents rest : Bytes}
    (h : decodeFrame bs = some (contents, rest)) :
    ∃ used, encodeFrame contents = some used ∧ bs = used ++ rest := by
  rw [decodeFrame] at h
  by_cases hsize : 4 ≤ value (bs.take 4) ∧ value (bs.take 4) ≤ bs.length
  · rw [if_pos hsize] at h
    obtain ⟨rfl, rfl⟩ := Prod.mk.inj (Option.some.inj h)
    obtain ⟨hfour, hall⟩ := hsize
    have htake : (bs.take 4).length = 4 := List.length_take_of_le (by omega)
    have hlt := value_lt (bs.take 4)
    have hle := le_value (bs.take 4)
    rw [htake] at hlt hle
    have hlen : ((bs.take (value (bs.take 4))).drop 4).length + 4 = value (bs.take 4) := by
      rw [List.length_drop, List.length_take_of_le hall]
      omega
    have hfront : (bs.take (value (bs.take 4))).take 4 = bs.take 4 := by
      rw [List.take_take, Nat.min_eq_left hfour]
    have hwhole := List.take_append_drop 4 (bs.take (value (bs.take 4)))
    rw [hfront] at hwhole
    refine ⟨_, encodeFrame_eq_some.mpr ⟨by omega, rfl⟩, ?_⟩
    rw [frame, hlen, hle, hwhole, List.take_append_drop]
  · rw [if_neg hsize] at h
    cases h

theorem encodeFrame_ne_nil (contents : Bytes) : encodeFrame contents ≠ some [] := by
  intro h
  obtain ⟨-, hnil⟩ := encodeFrame_eq_some.mp h
  have hsize := length_frame contents
  rw [hnil] at hsize
  cases hsize

/-- The frames of a connection. -/
def frames : FrameFormat UInt8 Bytes where
  encode := encodeFrame
  decode := decodeFrame
  decode_encode := decodeFrame_encodeFrame
  encode_decode := encodeFrame_decodeFrame
  nonempty := encodeFrame_ne_nil

/-! ## Lines -/

/-- No write reports more bytes than it was handed. -/
structure Kernel (σ : Type) extends SystemCalls σ where
  write_le : ∀ fd data world, (write fd data world).1.toInt ≤ data.length

/-- The state of the world, and the bytes that have gone out on each descriptor. -/
structure Lines (σ : Type) where
  world : σ
  wire  : Int → Bytes

/-- Bytes that go out on a descriptor. -/
def sendOn (fd : Int) (bs : Bytes) (wire : Int → Bytes) : Int → Bytes :=
  fun fd' => if fd' = fd then wire fd' ++ bs else wire fd'

theorem sendOn_same (fd : Int) (bs : Bytes) (wire : Int → Bytes) :
    sendOn fd bs wire fd = wire fd ++ bs := if_pos rfl

theorem sendOn_other {fd fd' : Int} (h : fd' ≠ fd) (bs : Bytes) (wire : Int → Bytes) :
    sendOn fd bs wire fd' = wire fd' := if_neg h

/-- The calls with what goes out: as many bytes as are reported, none when the call
    fails. -/
def Kernel.onLines (kernel : Kernel σ) : SystemCalls (Lines σ) where
  write := fun fd data lines =>
    match kernel.write fd data lines.world with
    | (answer, world) =>
        (answer, { world := world
                   wire := sendOn fd (data.take answer.toInt.toNat) lines.wire })
  read := fun fd data lines =>
    match kernel.read fd data lines.world with
    | (got, world) => (got, { lines with world := world })

/-- A connection to the kernel, with a record of what goes out. -/
def connectionOn (kernel : Kernel σ) (this : FileHandleConnection) : Connection (Lines σ) :=
  this.connection kernel.onLines

/-- As a size an answer is itself, or `2^64` more when it is negative. -/
theorem answer_sign (answer : Int64) :
    0 ≤ answer.toInt ∧ answer.toUInt64.toNat = answer.toInt.toNat
      ∨ answer.toInt < 0 ∧ 9223372036854775808 ≤ answer.toUInt64.toNat
        ∧ (answer.toUInt64.toNat : Int) = answer.toInt + 18446744073709551616 := by
  have hcount : answer.toUInt64.toNat = answer.toBitVec.toNat := rfl
  have hint : answer.toInt = answer.toBitVec.toInt := rfl
  have hlt := answer.toBitVec.isLt
  rw [hcount, hint, BitVec.toInt_eq_toNat_cond]
  by_cases hsmall : 2 * answer.toBitVec.toNat < 2 ^ 64
  · rw [if_pos hsmall]
    omega
  · rw [if_neg hsmall]
    omega

/-! ## One write -/

/-- How a call ended: the exception, if it threw, and what it left. -/
def ended : EStateM.Result Exception σ Unit → Option Exception × σ
  | .ok () world    => (none, world)
  | .error ex world => (some ex, world)

/-- A write as a step. -/
def attempt (c : Connection σ) (msg : MessageStream) (world : σ) : Option Exception × σ :=
  ended (c.write msg world)

/-- The contents are refused, or their count fits the four bytes in front. -/
def Countable (contents : Bytes) : Prop :=
  contents.length + 4 < 4294967296 ∨ 4294967296 ≤ contents.length

instance (contents : Bytes) : Decidable (Countable contents) :=
  inferInstanceAs (Decidable (_ ∨ _))

/-- The exception of contents whose length does not fit 32 bits. -/
def tooLong : Exception := ⟨"length of the message is too long to write out!"⟩

/-- The exception of a count that is not that of the frame. -/
def shortWrite (bytesWritten : UInt64) (actualLen : Nat) : Exception :=
  ⟨"Only wrote " ++ toString bytesWritten ++ "bytes of a " ++ toString actualLen
    ++ " bytes long message!"⟩

/-- Contents that are too long are refused before a call is made. -/
theorem attempt_of_long (c : Connection σ) {msg : MessageStream}
    (hlen : 4294967296 ≤ msg.str.length) (world : σ) :
    attempt c msg world = (some tooLong, world) := by
  have hlen32 : (UInt32.ofNat msg.str.length).toNat ≠ msg.str.length := by
    rw [ne_eq, ofNat32_toNat]
    omega
  simp only [attempt, Connection.write]
  rw [if_pos hlen32.symm]
  rfl

/-- All others go to `rawWrite` as one frame, and its count decides. -/
theorem attempt_of_short (c : Connection σ) {msg : MessageStream}
    (hlen : msg.str.length + 4 < 4294967296) (world : σ) :
    attempt c msg world
      = (if (c.rawWrite (frame msg.str) world).1.toNat = (frame msg.str).length then none
          else some (shortWrite (c.rawWrite (frame msg.str) world).1 (frame msg.str).length),
        (c.rawWrite (frame msg.str) world).2) := by
  have hlen32 : (UInt32.ofNat msg.str.length).toNat = msg.str.length :=
    ofNat32_toNat.mpr (by omega)
  have hactual : (UInt32.ofNat msg.str.length + 4).toNat = (frame msg.str).length := by
    rw [UInt32.toNat_add, hlen32, length_frame]
    exact Nat.mod_eq_of_lt hlen
  have hframe : le 4 (UInt32.ofNat msg.str.length + 4).toNat ++ msg.str = frame msg.str := by
    rw [hactual, length_frame]
    rfl
  have htext : toString (UInt32.ofNat msg.str.length + 4) = toString (frame msg.str).length := by
    rw [← hactual]
    rfl
  have hcount (n : UInt64) : n ≠ (UInt32.ofNat msg.str.length + 4).toUInt64
      ↔ ¬ n.toNat = (frame msg.str).length := by
    rw [← hactual, ← UInt32.toNat_toUInt64, UInt64.toNat_inj]
  simp only [attempt, Connection.write]
  rw [if_neg (not_not.mpr hlen32.symm), bytes_of_actualLen, hframe, htext]
  by_cases hn : (c.rawWrite (frame msg.str) world).1.toNat = (frame msg.str).length
  · rw [if_neg (fun h => (hcount _).mp h hn), if_pos hn]
    rfl
  · rw [if_pos ((hcount _).mpr hn), if_neg hn]
    rfl

/-! ## The write on a line -/

/-- An answer is a count, or becomes one that no string has. -/
theorem answer_cases (answer : Int64) :
    answer.toUInt64.toNat = answer.toInt.toNat
      ∨ answer.toInt.toNat = 0 ∧ 9223372036854775808 ≤ answer.toUInt64.toNat := by
  rcases answer_sign answer with ⟨-, hcount⟩ | ⟨hneg, hbig, -⟩
  · exact Or.inl hcount
  · exact Or.inr ⟨Int.toNat_of_nonpos (Int.le_of_lt hneg), hbig⟩

/-- The count is what becomes of the answer of some `::write` that failed. -/
def Failed (kernel : Kernel σ) (count : UInt64) : Prop :=
  ∃ fd data world, (kernel.write fd data world).1.toInt < 0
    ∧ count = (kernel.write fd data world).1.toUInt64

theorem Failed.big {kernel : Kernel σ} {count : UInt64} (h : Failed kernel count) :
    9223372036854775808 ≤ count.toNat := by
  obtain ⟨fd, data, world, hneg, rfl⟩ := h
  rcases answer_sign (kernel.write fd data world).1 with ⟨hpos, -⟩ | ⟨-, hbig, -⟩
  · omega
  · exact hbig

/-- What a call does to the lines: some of the data goes out on the descriptor, and
    the count reported is how much, unless the call failed and nothing did. -/
theorem rawWrite_sends (kernel : Kernel σ) (this : FileHandleConnection) (data : Bytes)
    (lines : Lines σ) :
    ∃ n, n ≤ data.length
      ∧ (this.rawWrite kernel.onLines data lines).2.wire
        = sendOn this.handle (data.take n) lines.wire
      ∧ ((this.rawWrite kernel.onLines data lines).1.toNat = n
        ∨ n = 0 ∧ Failed kernel (this.rawWrite kernel.onLines data lines).1) := by
  by_cases hv : this.isValidHandle = true
  · have hle := kernel.write_le this.handle data lines.world
    refine ⟨(kernel.write this.handle data lines.world).1.toInt.toNat, by omega, ?_, ?_⟩
    · rw [FileHandleConnection.rawWrite, if_pos hv]
      rfl
    · rw [FileHandleConnection.rawWrite, if_pos hv]
      rcases answer_sign (kernel.write this.handle data lines.world).1
        with ⟨-, hcount⟩ | ⟨hneg, -, -⟩
      · exact Or.inl hcount
      · exact Or.inr ⟨Int.toNat_of_nonpos (Int.le_of_lt hneg), _, _, _, hneg, rfl⟩
  · have hnothing : sendOn this.handle [] lines.wire = lines.wire := by
      funext fd
      rw [sendOn, List.append_nil, ite_self]
    refine ⟨0, Nat.zero_le _, ?_, ?_⟩
    · rw [FileHandleConnection.rawWrite, if_neg hv, List.take_zero, hnothing]
    · rw [FileHandleConnection.rawWrite, if_neg hv]
      exact Or.inl rfl

/-- A write throws exactly when not all of the frame went out on its descriptor, and
    says how much did, if the call did not fail. -/
theorem attempt_cases (kernel : Kernel σ) (this : FileHandleConnection) {msg : MessageStream}
    (hlen : msg.str.length + 4 < 4294967296) (lines : Lines σ) :
    ∃ p, p <+: frame msg.str
      ∧ (attempt (connectionOn kernel this) msg lines).2.wire = sendOn this.handle p lines.wire
      ∧ ((attempt (connectionOn kernel this) msg lines).1 = none ∧ p = frame msg.str
        ∨ p ≠ frame msg.str ∧ ∃ count,
          (attempt (connectionOn kernel this) msg lines).1
              = some (shortWrite count (frame msg.str).length)
            ∧ (count.toNat = p.length ∨ p = [] ∧ Failed kernel count)) := by
  have hframe := length_frame msg.str
  obtain ⟨n, hn, hwire, hcount⟩ := rawWrite_sends kernel this (frame msg.str) lines
  have htake : ((frame msg.str).take n).length = n := List.length_take_of_le hn
  rw [attempt_of_short _ hlen]
  refine ⟨_, List.take_prefix n _, hwire, ?_⟩
  show (if (this.rawWrite kernel.onLines (frame msg.str) lines).1.toNat = _ then _ else _) = _ ∧ _
    ∨ _
  by_cases hall : n = (frame msg.str).length
  · left
    have hwhole : (this.rawWrite kernel.onLines (frame msg.str) lines).1.toNat
        = (frame msg.str).length := by
      rcases hcount with hcount | ⟨hnone, -⟩
      · exact hcount.trans hall
      · omega
    rw [if_pos hwhole, hall, List.take_length]
    exact ⟨rfl, rfl⟩
  · right
    have hcounted : (this.rawWrite kernel.onLines (frame msg.str) lines).1.toNat
        ≠ (frame msg.str).length := by
      rcases hcount with hcount | ⟨-, hfailed⟩
      · omega
      · have hbig := hfailed.big
        omega
    refine ⟨fun heq => hall (by rw [← htake, heq]), _, if_neg hcounted, ?_⟩
    rcases hcount with hcount | ⟨rfl, hfailed⟩
    · exact Or.inl (hcount.trans htake.symm)
    · exact Or.inr ⟨List.take_zero, hfailed⟩

/-- A write leaves the other descriptors alone. -/
theorem attempt_other (kernel : Kernel σ) {this : FileHandleConnection} {msg : MessageStream}
    (hmsg : Countable msg.str) {fd : Int} (hfd : fd ≠ this.handle) (lines : Lines σ) :
    (attempt (connectionOn kernel this) msg lines).2.wire fd = lines.wire fd := by
  rcases hmsg with hlen | hlen
  · obtain ⟨p, -, hwire, -⟩ := attempt_cases kernel this hlen lines
    rw [hwire, sendOn_other hfd]
  · rw [attempt_of_long _ hlen]

/-- A read puts nothing on any descriptor. -/
theorem wire_read (kernel : Kernel σ) (this : FileHandleConnection) (msg : MessageStream)
    (lines : Lines σ) :
    ∃ ex lines', (connectionOn kernel this).read (lines, msg) = .error ex (lines', msg)
      ∧ lines'.wire = lines.wire := by
  have hwire (data : Bytes) (lines : Lines σ) :
      (this.rawRead kernel.onLines data lines).2.wire = lines.wire := by
    rw [FileHandleConnection.rawRead]
    by_cases hv : this.isValidHandle = true
    · rw [if_pos hv]
      rfl
    · rw [if_neg hv]
  obtain ⟨ex, lines', hthrow, hcalls⟩ := read_cases (connectionOn kernel this) lines msg
  refine ⟨ex, lines', hthrow, ?_⟩
  rcases hcalls with rfl | ⟨-, data, rfl⟩
  · exact hwire _ lines
  · exact (hwire data _).trans (hwire _ lines)

/-! ## Many parties -/

/-- What is done with a connection: a stream is written, or one is read into. -/
inductive Call where
  | write (msg : MessageStream)
  | read (msg : MessageStream)

/-- A call on a connection, as a step of all that share the descriptors. -/
def perform (kernel : Kernel σ) (call : FileHandleConnection × Call) (lines : Lines σ) :
    Option Exception × Lines σ :=
  match call.2 with
  | .write msg => attempt (connectionOn kernel call.1) msg lines
  | .read msg  =>
      match ended ((connectionOn kernel call.1).read (lines, msg)) with
      | (result, (lines, _)) => (result, lines)

/-- What a call is to send on a descriptor. -/
def contents (fd : Int) (call : FileHandleConnection × Call) : List Bytes :=
  match call.2 with
  | .write msg => if call.1.handle = fd then [msg.str] else []
  | .read _    => []

theorem contents_write (fd : Int) (this : FileHandleConnection) (msg : MessageStream) :
    contents fd (this, .write msg) = if this.handle = fd then [msg.str] else [] := rfl

/-- What is written is refused, or its count fits. -/
def CountableCall (call : FileHandleConnection × Call) : Prop :=
  match call.2 with
  | .write msg => Countable msg.str
  | .read _    => True

instance : (call : FileHandleConnection × Call) → Decidable (CountableCall call)
  | (_, .write msg) => inferInstanceAs (Decidable (Countable msg.str))
  | (_, .read _)    => .isTrue trivial

/-- **A WRITE SENDS A FRAME**: part of it goes out, and all of it when the write
    returns. -/
theorem sends_attempt (kernel : Kernel σ) (this : FileHandleConnection) :
    Sends frames (fun msg => Countable msg.str) (fun _ => True)
      (fun lines => lines.wire this.handle) (fun msg => [msg.str])
      (attempt (connectionOn kernel this)) where
  keeps := fun _ _ _ _ => trivial
  grows := by
    intro msg lines _ hmsg
    rcases hmsg with hlen | hlen
    · obtain ⟨p, -, hwire, -⟩ := attempt_cases kernel this hlen lines
      rw [hwire, sendOn_same]
      exact List.prefix_append _ _
    · have hkept : (attempt (connectionOn kernel this) msg lines).2 = lines :=
        congrArg Prod.snd (attempt_of_long _ hlen lines)
      exact hkept.symm ▸ List.prefix_rfl
  whole := by
    intro msg lines _ hmsg hnone
    rcases hmsg with hlen | hlen
    · obtain ⟨p, -, hwire, ⟨-, rfl⟩ | ⟨-, count, hthrow, -⟩⟩ :=
        attempt_cases kernel this hlen lines
      · refine ⟨frame msg.str, ?_, by rw [hwire, sendOn_same]⟩
        rw [encodeEach, encodeEach, show frames.encode msg.str = _ from if_pos hlen, cat_some,
          List.append_nil]
      · rw [hthrow] at hnone
        cases hnone
    · rw [attempt_of_long _ hlen] at hnone
      cases hnone

/-- Seen from one descriptor, all the parties together are a sender. -/
theorem sends_perform (kernel : Kernel σ) (fd : Int) :
    Sends frames CountableCall (fun _ => True) (fun lines => lines.wire fd) (contents fd)
      (perform kernel) := by
  have hwritten := sends_attempt kernel
  refine ⟨fun _ _ _ _ => trivial, ?_, ?_⟩
  · rintro ⟨this, msg | msg⟩ lines _ hcall
    · by_cases hfd : this.handle = fd
      · exact hfd ▸ (hwritten this).grows msg lines trivial hcall
      · have hkept := attempt_other kernel hcall (Ne.symm hfd) lines
        exact hkept.symm ▸ List.prefix_rfl
    · obtain ⟨ex, lines', hread, hwire⟩ := wire_read kernel this msg lines
      simp only [perform, hread, ended, hwire]
      exact List.prefix_rfl
  · rintro ⟨this, msg | msg⟩ lines _ hcall hnone
    · by_cases hfd : this.handle = fd
      · have hsent := (hwritten this).whole msg lines trivial hcall hnone
        rw [contents_write, if_pos hfd]
        exact hfd ▸ hsent
      · rw [contents_write, if_neg hfd]
        have hkept := attempt_other kernel hcall (Ne.symm hfd) lines
        exact ⟨[], rfl, hkept.trans (List.append_nil _).symm⟩
    · obtain ⟨ex, lines', hread, -⟩ := wire_read kernel this msg lines
      simp only [perform, hread, ended] at hnone
      cases hnone

/-- **THE PEERS ARE IN STEP**: whoever writes and reads on whatever connections and in
    whatever order, the peer of a descriptor has exactly the contents whose write on
    it returned, and nothing left over, if and only if no write on it threw after
    some bytes had gone out. -/
theorem peers_inStep_iff (kernel : Kernel σ) {calls : List (FileHandleConnection × Call)}
    (hcalls : ∀ call ∈ calls, CountableCall call) (lines : Lines σ) (fd : Int) :
    ∃ sent, (run (next (perform kernel)) calls lines).wire fd = lines.wire fd ++ sent
      ∧ (frames.receive sent
          = ((succeeded (perform kernel) calls lines).flatMap (contents fd), [])
        ↔ EveryStep (next (perform kernel)) (Clean (fun lines => lines.wire fd) (perform kernel))
            calls lines) :=
  (sends_perform kernel fd).receive_iff hcalls trivial

theorem toInt_ofNat_le (n : Nat) : (Int64.ofNat n).toInt ≤ n := by
  have hint : (Int64.ofNat n).toInt = (BitVec.ofNat 64 n).toInt := rfl
  have hmod := Nat.mod_le n (2 ^ 64)
  rw [hint, BitVec.toInt_eq_toNat_cond, BitVec.toNat_ofNat]
  by_cases hsmall : 2 * (n % 2 ^ 64) < 2 ^ 64
  · rw [if_pos hsmall]
    omega
  · rw [if_neg hsmall]
    omega

/-- A kernel that takes so many bytes at a time, and never delivers any. -/
def atMost (limit : Nat) : Kernel Unit where
  write := fun _ data _ => (Int64.ofNat (min limit data.length), ())
  read := fun _ data _ => ((-1, data), ())
  write_le := by
    intro _ data _
    have hle := toInt_ofNat_le (min limit data.length)
    show (Int64.ofNat (min limit data.length)).toInt ≤ data.length
    omega

/-- Two copies and a third connection: on the shared descriptor an empty message goes
    out whole and then half of the next one, with a read in between. -/
def threeParties : List (FileHandleConnection × Call) :=
  [(⟨3, true⟩, .write (.new fun _ => 0)), (⟨4, true⟩, .write (.new fun _ => 0)),
    (⟨3, true⟩, .read (.new fun _ => 0)),
    (⟨3, true⟩, .write ((MessageStream.new fun _ => 0).setStr [1, 2]))]

/-- The peer of the third connection is in step whatever becomes of the other two. -/
theorem peers_inStep_iff_three :
    (∀ fd, ∃ sent, (run (next (perform (atMost 4))) threeParties ⟨(), fun _ => []⟩).wire fd
        = [] ++ sent
      ∧ (frames.receive sent
          = ((succeeded (perform (atMost 4)) threeParties ⟨(), fun _ => []⟩).flatMap
              (contents fd), [])
        ↔ EveryStep (next (perform (atMost 4)))
            (Clean (fun lines => lines.wire fd) (perform (atMost 4))) threeParties
              ⟨(), fun _ => []⟩))
      ∧ frames.receive ((run (next (perform (atMost 4))) threeParties ⟨(), fun _ => []⟩).wire 4)
        = ([[]], [])
      ∧ frames.receive ((run (next (perform (atMost 4))) threeParties ⟨(), fun _ => []⟩).wire 3)
        = ([[]], [6, 0, 0, 0]) :=
  ⟨peers_inStep_iff (atMost 4) (by decide) ⟨(), fun _ => []⟩, by decide, by decide⟩

/-- When it fails, `::write` answers -1. -/
def MinusOne (kernel : Kernel σ) : Prop :=
  ∀ fd data world, (kernel.write fd data world).1.toInt < 0 → (kernel.write fd data world).1 = -1

/-- -1 becomes the greatest size. -/
theorem Failed.eq {kernel : Kernel σ} {count : UInt64} (h : Failed kernel count)
    (hkernel : MinusOne kernel) : count = 18446744073709551615 := by
  obtain ⟨fd, data, world, hneg, rfl⟩ := h
  rw [hkernel fd data world hneg]
  rfl

/-- What an exception says of the part of the frame that went out: how long it is,
    or -1 as a size when the call failed and nothing did. -/
def Left (contents : Bytes) (ex : Exception) (p : Bytes) : Prop :=
  ex = tooLong ∧ 4294967296 ≤ contents.length ∧ p = []
    ∨ contents.length + 4 < 4294967296 ∧ Torn p (frame contents)
      ∧ ∃ count, ex = shortWrite count (frame contents).length
        ∧ (count.toNat = p.length ∨ p = [] ∧ count = 18446744073709551615)

/-- A write that throws leaves what its exception says. -/
theorem tears_attempt {kernel : Kernel σ} (hkernel : MinusOne kernel)
    (this : FileHandleConnection) :
    Tears frames (fun msg => Countable msg.str) (fun _ => True)
      (fun lines => lines.wire this.handle) (attempt (connectionOn kernel this))
      (fun msg => Left msg.str) where
  leaves := by
    intro msg lines ex _ hmsg hthrow
    rcases hmsg with hlen | hlen
    · obtain ⟨p, hp, hwire, ⟨hnone, -⟩ | ⟨hne, count, hex, hcount⟩⟩ :=
        attempt_cases kernel this hlen lines
      · rw [hnone] at hthrow
        cases hthrow
      · rw [hex] at hthrow
        refine ⟨p, by rw [hwire, sendOn_same], Or.inr ⟨hlen, ⟨hp, hne⟩, count, ?_, ?_⟩⟩
        · exact (Option.some.inj hthrow).symm
        · exact hcount.imp_right fun ⟨hnil, hfailed⟩ => ⟨hnil, hfailed.eq hkernel⟩
    · rw [attempt_of_long _ hlen] at hthrow ⊢
      exact ⟨[], (List.append_nil _).symm, Or.inl ⟨(Option.some.inj hthrow).symm, hlen, rfl⟩⟩
  torn := by
    rintro msg ex p (⟨-, -, rfl⟩ | ⟨hlen, htorn, -⟩)
    · exact decode_nil frames
    · exact decode_torn frames (if_pos hlen) htorn

/-- `writeEach` stops at the first exception. -/
theorem ended_writeEach (c : Connection σ) (msgs : List MessageStream) (world : σ) :
    ended (c.writeEach msgs world) = sendEach (attempt c) msgs world := by
  induction msgs generalizing world with
  | nil => rfl
  | cons msg msgs ih =>
      show ended (EStateM.bind (c.write msg) (fun _ => c.writeEach msgs) world) = _
      simp only [EStateM.bind, sendEach, attempt]
      cases c.write msg world with
      | ok u world' => exact ih world'
      | error ex world' => rfl

/-- **WHAT WENT BEFORE AN EXCEPTION HAS ARRIVED**: after some writes in a row, up to
    the first that throws, the peer has the contents of those in front of it and
    part of its frame, as much as the exception says; all contents, and no part of
    a frame, when none throws. -/
theorem peer_receives_writeEach {kernel : Kernel σ} (hkernel : MinusOne kernel)
    (this : FileHandleConnection) {msgs : List MessageStream}
    (hmsgs : ∀ msg ∈ msgs, Countable msg.str) (lines : Lines σ) :
    let result := ended ((connectionOn kernel this).writeEach msgs lines)
    ∃ before tail sent, result.2.wire this.handle = lines.wire this.handle ++ sent
      ∧ frames.receive sent = (before.map MessageStream.str, tail)
      ∧ Reached (fun msg => Left msg.str) msgs result.1 before tail := by
  intro result
  have hresult : result = sendEach (attempt (connectionOn kernel this)) msgs lines :=
    ended_writeEach _ msgs lines
  rw [hresult]
  obtain ⟨before, tail, sent, hwire, hreceive, hreached⟩ :=
    (sends_attempt kernel this).receive_sendEach (tears_attempt hkernel this) hmsgs trivial
  rw [← List.map_eq_flatMap] at hreceive
  exact ⟨before, tail, sent, hwire, hreceive, hreached⟩

/-- A kernel that takes up to 64 bytes once and fails from then on. -/
def onceOnly : Kernel Bool where
  write := fun _ data taken => (if taken then -1 else Int64.ofNat (min 64 data.length), true)
  read := fun _ data taken => ((-1, data), taken)
  write_le := by
    intro _ data taken
    cases taken with
    | false => exact (atMost 64).write_le 0 data ()
    | true => exact Int.le_trans (by decide : (-1 : Int64).toInt ≤ 0) (Int.natCast_nonneg _)

/-- What a kernel takes at a time is no failure. -/
theorem nonneg_atMost {limit : Nat} (h : limit < 9223372036854775808) (data : Bytes) :
    0 ≤ (Int64.ofNat (min limit data.length)).toInt := by
  rw [Int64.toInt_ofNat_of_lt (by omega)]
  exact Int.natCast_nonneg _

theorem minusOne_atMost {limit : Nat} (h : limit < 9223372036854775808) :
    MinusOne (atMost limit) :=
  fun _ data _ hneg => absurd hneg (Int.not_lt.mpr (nonneg_atMost h data))

theorem minusOne_onceOnly : MinusOne onceOnly := by
  intro _ data taken hneg
  cases taken with
  | false => exact absurd hneg (Int.not_lt.mpr (@nonneg_atMost 64 (by decide) data))
  | true => rfl

/-- Behind the first frame four bytes of the second have arrived, or none and the
    exception says -1. -/
theorem peer_receives_writeEach_two :
    let msgs := [MessageStream.new fun _ => 0, (MessageStream.new fun _ => 0).setStr [1, 2]]
    let torn := ended ((connectionOn (atMost 4) ⟨3, true⟩).writeEach msgs ⟨(), fun _ => []⟩)
    let failed := ended ((connectionOn onceOnly ⟨3, true⟩).writeEach msgs ⟨false, fun _ => []⟩)
    (torn.1 = some (shortWrite 4 6) ∧ torn.2.wire 3 = [4, 0, 0, 0, 6, 0, 0, 0]
        ∧ ∃ before tail sent, torn.2.wire 3 = [] ++ sent
          ∧ frames.receive sent = (before.map MessageStream.str, tail)
          ∧ Reached (fun msg => Left msg.str) msgs torn.1 before tail)
      ∧ failed.1 = some (shortWrite 18446744073709551615 6) ∧ failed.2.wire 3 = [4, 0, 0, 0]
        ∧ ∃ before tail sent, failed.2.wire 3 = [] ++ sent
          ∧ frames.receive sent = (before.map MessageStream.str, tail)
          ∧ Reached (fun msg => Left msg.str) msgs failed.1 before tail :=
  ⟨⟨rfl, rfl, peer_receives_writeEach (minusOne_atMost (by decide)) ⟨3, true⟩ (by decide)
      ⟨(), fun _ => []⟩⟩,
    rfl, rfl, peer_receives_writeEach minusOne_onceOnly ⟨3, true⟩ (by decide)
      ⟨false, fun _ => []⟩⟩

end KzrSender
