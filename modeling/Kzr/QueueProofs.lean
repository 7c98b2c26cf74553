import Kzr.IntegerCodecProofs
import Kzr.SimulationProofs

/-! # The message stream as a byte queue

    What a byte queue does is written down on its contents alone: output joins
    the end or is refused, input takes from the front, and a reset queue is a
    new one.  The message stream is run against it, the unread bytes being the
    contents.

    The stream loses bytes through its bookkeeping: its flags, which a read
    past the end raises and no operation of the class lowers, and its put
    position, which `str(s)` leaves in front of `s`.  `Sound` says of each
    operation in which states that does not happen, and a run behaves as a
    queue exactly when all its steps are sound. -/

namespace KzrQueue

open WireFormat LittleEndian KzrMessageStream KzrPrimitive KzrIntegerCodec
open Runs (EveryStep everyStep_congr)
open Simulation (answers)

/-! ## Runs -/

/-- The operations; a string is decoded into a given one. -/
inductive Op where
  | encode (v : Value)
  | encodeString (s : Bytes)
  | write (s : Bytes)
  | decode (w : Width)
  | decodeString (data : Bytes)
  | setStr (s : Bytes)
  | reset

/-- What an operation hands back. -/
inductive Outcome where
  | done
  | threw (ex : Exception)
  | value (v : Value)
  | text (s : Bytes)
deriving DecidableEq

/-- An encoder as an operation: it has nothing to hand back, but may throw. -/
def output (p : Put) (msg : MessageStream) : Outcome × MessageStream :=
  match p msg with
  | .ok () msg'   => (.done, msg')
  | .error ex msg' => (.threw ex, msg')

/-- What an operation answers and what it leaves. -/
def step (order : ArgOrder) : Op → MessageStream → Outcome × MessageStream
  | .encode v, msg          => output (encodeValue v) msg
  | .encodeString s, msg    => output (KzrMessageStream.encodeString s) msg
  | .write s, msg           => output (KzrMessageStream.write s) msg
  | .decode w, msg          =>
      match decodeValue order w msg with
      | (v, msg') => (.value v, msg')
  | .decodeString data, msg =>
      match KzrMessageStream.decodeString data msg with
      | (s, msg') => (.text s, msg')
  | .setStr s, msg          => (.done, msg.setStr s)
  | .reset, msg             => (.done, msg.reset)

/-- The stream an operation leaves. -/
def after (order : ArgOrder) (op : Op) (msg : MessageStream) : MessageStream :=
  (step order op msg).2

/-- An operation with what can be seen of it: its outcome, and the unread bytes
    behind it. -/
def observed (order : ArgOrder) (op : Op) (msg : MessageStream) :
    (Outcome × Bytes) × MessageStream :=
  (((step order op msg).1, (after order op msg).unread), after order op msg)

/-- What can be seen of a run. -/
def trace (order : ArgOrder) : List Op → MessageStream → List (Outcome × Bytes) :=
  answers (observed order)

/-! ## The queue -/

/-- The bytes of an encoded string. -/
def stringBytes (s : Bytes) : Bytes := le 2 s.length ++ s

/-- The bytes of an integer. -/
def integerBytes : Value → Bytes
  | .u8 v  => [v]
  | .u16 v => le 2 v.toNat
  | .u32 v => le 4 v.toNat
  | .u64 v => le 8 v.toNat

/-- How many bytes an integer takes. -/
def size : Width → Nat
  | .u8  => 1
  | .u16 => 2
  | .u32 => 4
  | .u64 => 8

/-- How many bytes a decode asks for when `q` is unread; the first two of a
    string say how many follow. -/
def wanted : Op → Bytes → Nat
  | .decode w, _                  => size w
  | .decodeString _, b₀ :: b₁ :: _ => 2 + value [b₀, b₁]
  | .decodeString _, _            => 2
  | _, _                          => 0

/-- Output is refused, or joins the end. -/
def Joins (bs q q' : Bytes) (outcome : Outcome) : Prop :=
  (∃ ex, outcome = .threw ex) ∨ q' = q ++ bs

/-- Input of `k` bytes takes the first `k` and hands back what they alone would
    have given; with fewer there it takes them all. -/
def Takes (order : ArgOrder) (op : Op) (q q' : Bytes) (outcome : Outcome) : Prop :=
  let k := wanted op q
  if k ≤ q.length then
    q' = q.drop k
      ∧ ∀ indeterminate,
        outcome = (step order op ((MessageStream.new indeterminate).setStr (q.take k))).1
  else q' = []

/-- What a queue does at one step of a stream. -/
def QueueStep (order : ArgOrder) (op : Op) (msg : MessageStream) : Prop :=
  let r := step order op msg
  match op with
  | .encode v       => Joins (integerBytes v) msg.unread r.2.unread r.1
  | .encodeString s => Joins (stringBytes s) msg.unread r.2.unread r.1
  | .write s        => Joins s msg.unread r.2.unread r.1
  | .decode w       => Takes order (.decode w) msg.unread r.2.unread r.1
  | .decodeString s => Takes order (.decodeString s) msg.unread r.2.unread r.1
  | .setStr s       => r.2.unread = s
  | .reset          =>
      ∀ ops, trace order ops r.2 = trace order ops (.new msg.indeterminate)

/-- The states in which an operation loses nothing: output finds the flags down
    and the put position at the end (or stores nothing anyway), input finds the
    flags down (or nothing to take), a reset finds the flags down. -/
def Sound : Op → MessageStream → Prop
  | .encode _, msg       => msg.Writable
  | .encodeString s, msg => msg.Writable ∨ 65536 ≤ s.length
  | .write s, msg        => msg.Writable ∨ s = [] ∨ msg.storage.bad = true
  | .decode _, msg       => msg.good = true ∨ msg.unread = []
  | .decodeString _, msg => msg.good = true ∨ msg.unread = []
  | .setStr _, _         => True
  | .reset, msg          => msg.good = true

/-! ## Output -/

/-- Put `bs` wherever the put position is. -/
def writeAll (msg : MessageStream) (bs : Bytes) : MessageStream :=
  { msg with storage := msg.storage.write bs }

/-- On every stream `p` returns normally and puts `bs`. -/
def Emits (p : Put) (bs : Bytes) : Prop := ∀ msg, p msg = .ok () (writeAll msg bs)

/-- Encoders in sequence emit one part after the other. -/
theorem Emits.seq {p q : Put} {as bs : Bytes} (hp : Emits p as) (hq : Emits q bs) :
    Emits (p >>= fun _ => q) (as ++ bs) := by
  intro msg
  show EStateM.bind p (fun _ => q) msg = _
  simp only [EStateM.bind, hp msg, hq (writeAll msg as)]
  simp only [writeAll, CharStream.write_append]

theorem emits_put (v : UInt8) : Emits (storagePut v) [v] := fun _ => rfl

theorem emits_uint16 (v : UInt16) : Emits (encodeUInt16 v) (le 2 v.toNat) := by
  rw [← bytes_of_uint16]
  exact (emits_put _).seq (emits_put _)

theorem emits_uint32 (v : UInt32) : Emits (encodeUInt32 v) (le 4 v.toNat) := by
  rw [← bytes_of_uint32]
  exact (emits_uint16 _).seq (emits_uint16 _)

theorem emits_uint64 (v : UInt64) : Emits (encodeUInt64 v) (le 8 v.toNat) := by
  rw [← bytes_of_uint64]
  exact (emits_uint32 _).seq (emits_uint32 _)

theorem emits_value (v : Value) : Emits (encodeValue v) (integerBytes v) := by
  cases v with
  | u8 v  => exact emits_put v
  | u16 v => exact emits_uint16 v
  | u32 v => exact emits_uint32 v
  | u64 v => exact emits_uint64 v

/-- Bytes put one by one behind `as`. -/
theorem emits_elements {p : Put} {as : Bytes} (hp : Emits p as) (s : Bytes) :
    Emits (p >>= fun _ => encodeElements encodeUInt8 s) (as ++ s) := by
  induction s generalizing p as with
  | nil =>
      intro msg
      rw [List.append_nil]
      show EStateM.bind p (fun _ => pure ()) msg = _
      simp only [EStateM.bind, hp msg]
      rfl
  | cons c s ih =>
      have h := ih (hp.seq (emits_put c))
      rw [List.append_assoc] at h
      intro msg
      refine Eq.trans ?_ (h msg)
      show EStateM.bind p (fun _ => _) msg = EStateM.bind (EStateM.bind p _) _ msg
      simp only [EStateM.bind, hp msg]
      rfl

/-- A string that fits its length is put behind it, any other is refused. -/
theorem output_string (s : Bytes) :
    (s.length < 65536
        ∧ ∀ msg, output (encodeString s) msg = (.done, writeAll msg (stringBytes s)))
      ∨ (65536 ≤ s.length ∧ ∃ ex, ∀ msg, output (encodeString s) msg = (.threw ex, msg)) := by
  by_cases hn : s.length < 65536
  · refine Or.inl ⟨hn, fun msg => ?_⟩
    have hlen := ofNat16_toNat.mpr hn
    have h := emits_elements (emits_uint16 (UInt16.ofNat s.length)) s msg
    rw [hlen] at h
    simp only [output, encodeString, hlen, ne_eq, not_true_eq_false, if_false]
    rw [h]
    rfl
  · refine Or.inr ⟨Nat.not_lt.mp hn, ?_⟩
    have hlen : (UInt16.ofNat s.length).toNat ≠ s.length := fun h => hn (ofNat16_toNat.mp h)
    simp only [output, encodeString, hlen, ne_eq, not_false_eq_true, if_true]
    exact ⟨_, fun _ => rfl⟩

/-! ## Input -/

variable {α : Type}

/-- What a decoder does to the unread bytes, of which it asks for `want`: on a
    good stream it moves past them or to the end, and when they are all there
    they determine its result; on any other stream nothing moves. -/
structure Intake (d : Get α) (want : Bytes → Nat) : Prop where
  moves  : ∀ msg : MessageStream,
    (d msg).2.unread = if msg.good then msg.unread.drop (want msg.unread) else msg.unread
  result : ∀ q : Bytes, want q ≤ q.length → ∃ a, Reads d (some (q.take (want q))) a
  asks   : ∀ q, 0 < want q

/-- `k` bytes are the encoding of an integer of their width. -/
theorem value_of_bytes (w : Width) {bs : Bytes} (h : bs.length = size w) :
    ∃ v : Value, v.width = w ∧ valueBytes v = some bs := by
  have hlt := value_lt bs
  have hle := le_value bs
  rw [h] at hlt hle
  cases w with
  | u8 =>
      obtain ⟨b, rfl⟩ := List.length_eq_one_iff.mp h
      exact ⟨.u8 b, rfl, rfl⟩
  | u16 =>
      refine ⟨.u16 (UInt16.ofNat (value bs)), rfl, ?_⟩
      show u16.encode _ = some bs
      rw [u16_encode, UInt16.toNat_ofNat_of_lt' hlt]
      exact congrArg some hle
  | u32 =>
      refine ⟨.u32 (UInt32.ofNat (value bs)), rfl, ?_⟩
      show u32.encode _ = some bs
      rw [u32_encode, UInt32.toNat_ofNat_of_lt' hlt]
      exact congrArg some hle
  | u64 =>
      refine ⟨.u64 (UInt64.ofNat (value bs)), rfl, ?_⟩
      show u64.encode _ = some bs
      rw [u64_encode, UInt64.toNat_ofNat_of_lt' hlt]
      exact congrArg some hle

theorem unread_storageGet (msg : MessageStream) :
    (storageGet msg).2.unread = if msg.good then msg.unread.drop 1 else msg.unread := by
  have h : (storageGet msg).2.storage = msg.storage.get.2 := by
    simp only [storageGet]
    cases msg.storage.get with
    | mk c storage => cases c <;> rfl
  show (storageGet msg).2.storage.unread = _
  rw [h]
  exact CharStream.unread_get msg.storage

theorem unread_storageRead (n : Nat) (msg : MessageStream) :
    (storageRead n msg).2.unread = if msg.good then msg.unread.drop n else msg.unread :=
  CharStream.unread_read msg.storage n

/-- Two reads in a row ask for the sum. -/
theorem unread_decodeUInt64 (order : ArgOrder) (msg : MessageStream) :
    (decodeUInt64 order msg).2.unread = if msg.good then msg.unread.drop 8 else msg.unread := by
  have h2 : (decodeUInt64 order msg).2 = (storageRead 4 (storageRead 4 msg).2).2 := by
    cases order <;> rfl
  rw [h2, unread_storageRead, unread_storageRead]
  have hgood : (storageRead 4 msg).2.good = true ↔ msg.good = true ∧ 4 ≤ msg.unread.length :=
    CharStream.good_read msg.storage 4
  by_cases hg : msg.good = true
  · rw [if_pos hg, if_pos hg]
    by_cases hn : 4 ≤ msg.unread.length
    · rw [if_pos (hgood.mpr ⟨hg, hn⟩), List.drop_drop]
    · -- the first read ran off the end, so there is nothing for the second
      rw [if_neg (fun h => hn (hgood.mp h).2), List.drop_eq_nil_of_le (by omega),
        List.drop_eq_nil_of_le (by omega)]
  · rw [if_neg (fun h => hg (hgood.mp h).1), if_neg hg, if_neg hg]

/-- An integer takes the bytes of its width. -/
theorem intake_value (order : ArgOrder) (w : Width) :
    Intake (decodeValue order w) (fun _ => size w) where
  moves := by
    intro msg
    cases w with
    | u8 => exact unread_storageGet msg
    | u16 => exact unread_storageRead 2 msg
    | u32 => exact unread_storageRead 4 msg
    | u64 => exact unread_decodeUInt64 order msg
  result := by
    intro q hq
    obtain ⟨v, rfl, hv⟩ := value_of_bytes w (List.length_take_of_le hq)
    exact ⟨_, hv ▸ reads_value order v⟩
  asks := by
    intro _
    cases w <;> decide

/-- Short of two bytes, a string asks for two. -/
theorem wanted_short {data q : Bytes} (h : q.length < 2) : wanted (.decodeString data) q = 2 := by
  match q, h with
  | [], _ => rfl
  | [_], _ => rfl

/-- The length of a string, and the string. -/
theorem intake_string (data : Bytes) :
    Intake (KzrMessageStream.decodeString data) (wanted (.decodeString data)) where
  moves := by
    intro msg
    have hrun : (KzrMessageStream.decodeString data msg).2.unread
        = ((decodeUInt16 msg).2.storage.read (decodeUInt16 msg).1.toNat).2.unread := rfl
    have hgood : (decodeUInt16 msg).2.storage.good = true
        ↔ msg.good = true ∧ 2 ≤ msg.unread.length :=
      CharStream.good_read msg.storage 2
    have hmoved : (decodeUInt16 msg).2.storage.unread
        = if msg.good then msg.unread.drop 2 else msg.unread := unread_storageRead 2 msg
    rw [hrun, CharStream.unread_read, hmoved]
    by_cases hg : msg.good = true
    · by_cases hn : 2 ≤ msg.unread.length
      · rw [if_pos (hgood.mpr ⟨hg, hn⟩), if_pos hg, if_pos hg, List.drop_drop]
        obtain ⟨b₀, b₁, rest, hq⟩ := exists_cons_cons hn
        rw [decodeUInt16_run hg hq, build8_eq_value, hq]
        rfl
      · -- without a length there is no string to go on to
        rw [if_neg (fun h => hn (hgood.mp h).2), if_pos hg, if_pos hg, wanted_short (by omega)]
    · rw [if_neg (fun h => hg (hgood.mp h).1), if_neg hg, if_neg hg]
  result := by
    intro q hq
    by_cases hn : 2 ≤ q.length
    · obtain ⟨b₀, b₁, rest, rfl⟩ := exists_cons_cons hn
      -- the length is there, and so are the characters it counts
      have hlen : (rest.take (value [b₀, b₁])).length = value [b₀, b₁] := by
        apply List.length_take_of_le
        simp only [wanted, List.length_cons] at hq
        omega
      have henc : stringFormat.encode (rest.take (value [b₀, b₁]))
          = some ((b₀ :: b₁ :: rest).take (wanted (.decodeString data) (b₀ :: b₁ :: rest))) := by
        show cat ((uint 2).encode (rest.take (value [b₀, b₁])).length) (encodeEach u8.encode _) = _
        have hle : (uint 2).encode (value [b₀, b₁]) = some [b₀, b₁] :=
          (uint_encode (value_lt [b₀, b₁])).trans (congrArg some (le_value [b₀, b₁]))
        rw [hlen, encodeEach_u8, hle, cat_some, wanted, Nat.add_comm]
        rfl
      exact ⟨_, henc ▸ reads_string data _⟩
    · rw [wanted_short (by omega)] at hq
      exact absurd hq hn
  asks := by
    intro q
    match q with
    | [] => exact Nat.two_pos
    | [_] => exact Nat.two_pos
    | _ :: _ :: _ => exact Nat.lt_of_lt_of_le Nat.two_pos (Nat.le_add_right _ _)

/-- **WHEN INPUT TAKES**: exactly when the flags are down or there is nothing to
    be taken. -/
theorem takes_iff {order : ArgOrder} {op : Op} {d : Get α} {outcome : α → Outcome}
    (h : Intake d (wanted op))
    (hstep : ∀ msg, step order op msg = (outcome (d msg).1, (d msg).2)) (msg : MessageStream) :
    Takes order op msg.unread (step order op msg).2.unread (step order op msg).1
      ↔ msg.good = true ∨ msg.unread = [] := by
  have hmoves : (step order op msg).2.unread
      = if msg.good then msg.unread.drop (wanted op msg.unread) else msg.unread := by
    rw [hstep]
    exact h.moves msg
  have hpos := h.asks msg.unread
  constructor
  · intro ht
    by_contra hneg
    obtain ⟨hg, hne⟩ := not_or.mp hneg
    -- with a flag up nothing moves, and there was something to take
    have hlen := List.length_pos_iff.mpr hne
    rw [hmoves, if_neg hg] at ht
    by_cases hk : wanted op msg.unread ≤ msg.unread.length
    · rw [Takes, if_pos hk] at ht
      have hdrop := congrArg List.length ht.1
      rw [List.length_drop] at hdrop
      omega
    · rw [Takes, if_neg hk] at ht
      exact hne ht
  · intro hs
    by_cases hk : wanted op msg.unread ≤ msg.unread.length
    · have hg : msg.good = true := hs.resolve_right fun hnil => by
        rw [hnil, List.length_nil] at hk
        rw [hnil] at hpos
        omega
      rw [Takes, if_pos hk, hmoves, if_pos hg]
      refine ⟨rfl, fun indeterminate => ?_⟩
      obtain ⟨a, ha⟩ := h.result msg.unread hk
      rw [hstep, hstep, ha _ _ msg rfl hg (List.take_append_drop _ _).symm,
        ha _ [] ((MessageStream.new indeterminate).setStr _) rfl rfl (List.append_nil _).symm]
    · rw [Takes, if_neg hk, hmoves]
      rcases hs with hg | hnil
      · rw [if_pos hg, List.drop_eq_nil_of_le (by omega)]
      · rw [hnil, List.drop_nil, ite_self]

/-! ## One step -/

/-- **WHEN OUTPUT JOINS**: what was put is behind all that was unread exactly
    when there was none or the stream was writable. -/
theorem joins_writeAll_iff (msg : MessageStream) (bs : Bytes) :
    Joins bs msg.unread (writeAll msg bs).unread .done ↔ msg.Writable ∨ bs = [] := by
  have hjoin := CharStream.unread_write_iff msg.storage bs
  constructor
  · rintro (⟨ex, hex⟩ | h)
    · exact nomatch hex
    · exact (hjoin.mp h).symm
  · intro h
    exact Or.inr (hjoin.mpr h.symm)

theorem integerBytes_ne_nil (v : Value) : integerBytes v ≠ [] := by
  cases v <;> exact List.cons_ne_nil _ _

theorem stringBytes_ne_nil (s : Bytes) : stringBytes s ≠ [] := List.cons_ne_nil _ _

/-- `write` looks at `badbit` and nothing else. -/
theorem output_write (s : Bytes) (msg : MessageStream) :
    output (KzrMessageStream.write s) msg
      = (if msg.storage.bad = true then .threw ⟨"bad bit set during write!"⟩ else .done,
          writeAll msg s) := by
  rw [← CharStream.bad_write msg.storage s]
  show output (fun _ => (if (msg.storage.write s).bad = true
    then throw ⟨"bad bit set during write!"⟩ else pure () : Put) (writeAll msg s)) msg = _
  by_cases hb : (msg.storage.write s).bad = true
  · rw [if_pos hb, if_pos hb]
    rfl
  · rw [if_neg hb, if_neg hb]
    rfl

/-- A reset stream is a new one exactly when its flags are down. -/
theorem reset_new_iff (order : ArgOrder) (msg : MessageStream) :
    (∀ ops, trace order ops msg.reset = trace order ops (.new msg.indeterminate))
      ↔ msg.good = true := by
  constructor
  · intro h
    by_contra hg
    -- one byte tells them apart: the one stream refuses it, the other holds it
    have hone := h [.encode (.u8 0)]
    have hbad : msg.reset.storage.good = false := by
      show msg.good = false
      simpa using hg
    have hlost : (msg.reset.storage.write [0]).unread = [] := by
      rw [CharStream.write_of_not_good hbad]
      rfl
    have hkept : ((MessageStream.new msg.indeterminate).storage.write [0]).unread = [0] := rfl
    have hsame : (msg.reset.storage.write [0]).unread
        = ((MessageStream.new msg.indeterminate).storage.write [0]).unread :=
      congrArg Prod.snd (List.cons.inj hone).1
    rw [hlost, hkept] at hsame
    exact nomatch hsame
  · intro hg ops
    have hnew : msg.reset = .new msg.indeterminate := by
      rw [MessageStream.reset, CharStream.setStr_nil hg]
      rfl
    rw [hnew]

/-- **ONE STEP**: the stream does what a queue does exactly in the sound states. -/
theorem queueStep_iff (order : ArgOrder) (op : Op) (msg : MessageStream) :
    QueueStep order op msg ↔ Sound op msg := by
  cases op with
  | encode v =>
      have hrun : step order (.encode v) msg = (.done, writeAll msg (integerBytes v)) := by
        simp only [step, output, emits_value v msg]
      rw [QueueStep, hrun]
      exact (joins_writeAll_iff msg _).trans (or_iff_left (integerBytes_ne_nil v))
  | encodeString s =>
      rcases output_string s with ⟨hn, hrun⟩ | ⟨hn, ex, hrun⟩
      · have hstep : step order (.encodeString s) msg = _ := hrun msg
        rw [QueueStep, hstep]
        have hlong : ¬ 65536 ≤ s.length := Nat.not_le.mpr hn
        refine (joins_writeAll_iff msg _).trans ?_
        simp only [Sound, hlong, stringBytes_ne_nil s]
      · have hstep : step order (.encodeString s) msg = _ := hrun msg
        rw [QueueStep, hstep]
        exact iff_of_true (Or.inl ⟨ex, rfl⟩) (Or.inr hn)
  | write s =>
      have hstep : step order (.write s) msg = _ := output_write s msg
      rw [QueueStep, hstep]
      by_cases hb : msg.storage.bad = true
      · rw [if_pos hb]
        exact iff_of_true (Or.inl ⟨_, rfl⟩) (Or.inr (Or.inr hb))
      · rw [if_neg hb]
        refine (joins_writeAll_iff msg s).trans ?_
        simp [Sound, hb]
  | decode w => exact takes_iff (intake_value order w) (fun _ => rfl) msg
  | decodeString data => exact takes_iff (intake_string data) (fun _ => rfl) msg
  | setStr s => exact iff_of_true rfl trivial
  | reset => exact reset_new_iff order msg

/-! ## Whole runs -/

/-- **THE STREAM IS A QUEUE** throughout a run exactly when every operation of
    it finds the stream in a sound state. -/
theorem stream_isQueue_iff (order : ArgOrder) (ops : List Op) (msg : MessageStream) :
    EveryStep (after order) (QueueStep order) ops msg ↔ EveryStep (after order) Sound ops msg :=
  everyStep_congr (queueStep_iff order) ops msg

/-- A byte encoded after a read past the end is lost, and no exception says so. -/
theorem stream_loses_byte :
    trace .leftFirst [.decode .u8, .encode (.u8 5)] (.new fun _ => 0)
        = [(.value (.u8 0), []), (.done, [])]
      ∧ ¬ EveryStep (after .leftFirst) (QueueStep .leftFirst) [.decode .u8, .encode (.u8 5)]
        (.new fun _ => 0) := by
  refine ⟨rfl, ?_⟩
  rintro ⟨-, hjoin, -⟩
  rcases hjoin with ⟨ex, hex⟩ | hlost
  · exact nomatch hex
  · have hnil : ([] : Bytes) = [5] := hlost
    exact nomatch hnil

/-- Operations that keep output at the end: no input of more than is unread,
    and no new contents but the empty ones. -/
def Fits : Op → MessageStream → Prop
  | .decode w, msg          => size w ≤ msg.unread.length
  | .decodeString data, msg => wanted (.decodeString data) msg.unread ≤ msg.unread.length
  | .setStr s, _            => s = []
  | _, _                    => True

/-- On a writable stream no operation goes wrong. -/
theorem sound_of_writable {op : Op} {msg : MessageStream} (h : msg.Writable) : Sound op msg := by
  cases op with
  | encode v => exact h
  | encodeString s => exact Or.inl h
  | write s => exact Or.inl h
  | decode w => exact Or.inl h.good
  | decodeString data => exact Or.inl h.good
  | setStr s => trivial
  | reset => exact h.good

theorem writeAll_of_writable {msg : MessageStream} (h : msg.Writable) (bs : Bytes) :
    writeAll msg bs = msg.append bs := by
  rw [writeAll, CharStream.write_of_writable h]
  rfl

theorem writable_writeAll {msg : MessageStream} (h : msg.Writable) (bs : Bytes) :
    (writeAll msg bs).Writable := by
  rw [writeAll_of_writable h]
  exact writable_append h bs

/-- Taking no more than there is leaves a stream writable. -/
theorem writable_intake {d : Get α} {want : Bytes → Nat} (hd : Intake d want)
    {msg : MessageStream} (h : msg.Writable) (hk : want msg.unread ≤ msg.unread.length) :
    (d msg).2.Writable := by
  obtain ⟨a, ha⟩ := hd.result msg.unread hk
  rw [ha _ _ msg rfl h.good (List.take_append_drop _ _).symm]
  exact ⟨h.good, h.at_end⟩

/-- Such an operation leaves a writable stream writable. -/
theorem writable_step (order : ArgOrder) {op : Op} {msg : MessageStream} (h : msg.Writable)
    (hf : Fits op msg) : (step order op msg).2.Writable := by
  cases op with
  | encode v =>
      simp only [step, output, emits_value v msg]
      exact writable_writeAll h _
  | encodeString s =>
      rcases output_string s with ⟨-, hrun⟩ | ⟨-, ex, hrun⟩
      · rw [step, hrun]
        exact writable_writeAll h _
      · rw [step, hrun]
        exact h
  | write s =>
      rw [step, output_write]
      exact writable_writeAll h s
  | decode w => exact writable_intake (intake_value order w) h hf
  | decodeString data => exact writable_intake (intake_string data) h hf
  | setStr s =>
      obtain rfl : s = [] := hf
      exact ⟨h.good, rfl⟩
  | reset => exact ⟨h.good, rfl⟩

/-- **FIRST IN, FIRST OUT**: on a writable stream, a new one for instance, any
    run of such operations is that of a queue. -/
theorem stream_isQueue_of_fits (order : ArgOrder) {ops : List Op} {msg : MessageStream}
    (h : msg.Writable) (hf : EveryStep (after order) Fits ops msg) :
    EveryStep (after order) (QueueStep order) ops msg :=
  .imp (fun _ _ hw hop => writable_step order hw hop)
    (fun op msg hw _ => (queueStep_iff order op msg).mpr (sound_of_writable hw)) h hf

end KzrQueue
