import Kzr.PrimitiveProofs

/-! # The integer codec under both orders of evaluation

    A list of integers of mixed widths goes into a new stream and comes back
    out.  The 8-, 16- and 32-bit decoders return what was encoded; the 64-bit
    decoder returns `reread order v`, which is `v` when the operands of `build`
    are evaluated left first and `v` with its halves exchanged otherwise.  So
    the list survives exactly when no half-swapped value is in it. -/

namespace KzrIntegerCodec

open WireFormat LittleEndian KzrMessageStream KzrPrimitive

/-- An integer together with the width it is encoded at. -/
inductive Value where
  | u8 (v : UInt8)
  | u16 (v : UInt16)
  | u32 (v : UInt32)
  | u64 (v : UInt64)
deriving DecidableEq

/-- The type a decode is instantiated at. -/
inductive Width where
  | u8 | u16 | u32 | u64
deriving DecidableEq

/-- The width of an integer. -/
def Value.width : Value → Width
  | .u8 _  => .u8
  | .u16 _ => .u16
  | .u32 _ => .u32
  | .u64 _ => .u64

/-- The overload of `encode` the value selects. -/
def encodeValue : Value → Put
  | .u8 v  => encodeUInt8 v
  | .u16 v => encodeUInt16 v
  | .u32 v => encodeUInt32 v
  | .u64 v => encodeUInt64 v

/-- `decode<T>()`. -/
def decodeValue (order : ArgOrder) : Width → Get Value
  | .u8  => do return .u8 (← decodeUInt8)
  | .u16 => do return .u16 (← decodeUInt16)
  | .u32 => do return .u32 (← decodeUInt32)
  | .u64 => do return .u64 (← decodeUInt64 order)

/-- Decode one value of each width in turn. -/
def decodeValues (order : ArgOrder) : List Width → Get (List Value)
  | []      => pure []
  | w :: ws => do
      let v ← decodeValue order w
      let vs ← decodeValues order ws
      pure (v :: vs)

/-- The values encoded into a new stream are the values decoded from it, and
    nothing stays unread. -/
def RoundTrips (order : ArgOrder) (indeterminate : Nat → UInt8) (vs : List Value) : Prop :=
  ∃ msg msg', encodeElements encodeValue vs (.new indeterminate) = .ok () msg
    ∧ decodeValues order (vs.map Value.width) msg = (vs, msg') ∧ msg'.unread = []

/-- The bytes of a value. -/
def valueBytes : Value → Option Bytes
  | .u8 v  => LittleEndian.u8.encode v
  | .u16 v => LittleEndian.u16.encode v
  | .u32 v => LittleEndian.u32.encode v
  | .u64 v => LittleEndian.u64.encode v

/-- What decoding makes of a value. -/
def received (order : ArgOrder) : Value → Value
  | .u64 v => .u64 (reread order v)
  | v      => v

theorem encodes_value (v : Value) : Encodes (encodeValue v) (valueBytes v) := by
  cases v with
  | u8 v  => exact encodes_uint8 v
  | u16 v => exact encodes_uint16 v
  | u32 v => exact encodes_uint32 v
  | u64 v => exact encodes_uint64 v

/-- An integer is read back, perhaps with its halves exchanged. -/
theorem reads_value (order : ArgOrder) (v : Value) :
    Reads (decodeValue order v.width) (valueBytes v) (received order v) := by
  cases v with
  | u8 v  => exact (reads_uint8 v).last Value.u8
  | u16 v => exact (reads_uint16 v).last Value.u16
  | u32 v => exact (reads_uint32 v).last Value.u32
  | u64 v => exact (reads_uint64 order v).last Value.u64

theorem reads_values (order : ArgOrder) (vs : List Value) :
    Reads (decodeValues order (vs.map Value.width)) (encodeEach valueBytes vs)
      (vs.map (received order)) := by
  induction vs with
  | nil => exact reads_pure []
  | cons v vs ih =>
      exact (reads_value order v).bind (ih.last (fun ws => received order v :: ws))

/-- Integers always have an encoding. -/
theorem valueBytes_some (vs : List Value) : ∃ bs, encodeEach valueBytes vs = some bs := by
  induction vs with
  | nil => exact ⟨[], rfl⟩
  | cons v vs ih =>
      obtain ⟨bs, hbs⟩ := ih
      obtain ⟨as, has⟩ : ∃ as, valueBytes v = some as := by
        cases v with
        | u8 v  => exact ⟨_, u8_encode v⟩
        | u16 v => exact ⟨_, u16_encode v⟩
        | u32 v => exact ⟨_, u32_encode v⟩
        | u64 v => exact ⟨_, u64_encode v⟩
      exact ⟨as ++ bs, by rw [encodeEach, has, hbs, cat_some]⟩

/-- A round trip applies `received` to every value. -/
theorem roundTrips_iff_received (order : ArgOrder) (indeterminate : Nat → UInt8)
    (vs : List Value) :
    RoundTrips order indeterminate vs ↔ vs.map (received order) = vs := by
  obtain ⟨bs, hbs⟩ := valueBytes_some vs
  have henc := (encodes_elements vs fun v _ => encodes_value v).appends bs hbs _
    (writable_new indeterminate)
  have hunread : ((MessageStream.new indeterminate).append bs).unread = bs ++ [] := by
    rw [unread_append, List.append_nil]
    rfl
  have hdec := reads_values order vs bs [] _ hbs rfl hunread
  constructor
  · rintro ⟨msg, msg', h1, h2, -⟩
    rw [henc] at h1
    cases h1
    rw [hdec] at h2
    exact congrArg Prod.fst h2
  · intro h
    refine ⟨_, _, henc, by rw [hdec, h], ?_⟩
    rw [unread_advance, hunread, List.append_nil, List.drop_length]

/-- Exchanging the halves of a value changes nothing exactly when they agree. -/
theorem reread_rightFirst_eq {v : UInt64} :
    reread .rightFirst v = v ↔ v.toUInt32 = (v >>> 32).toUInt32 := by
  constructor
  · intro h
    have hlow := congrArg UInt64.toUInt32 h
    -- the low half of the exchanged value is the old high half
    have hbuild : (reread .rightFirst v).toUInt32 = (v >>> 32).toUInt32 := by
      apply UInt32.toNat_inj.mp
      have hu := (v >>> 32).toUInt32.toNat_lt
      rw [UInt64.toNat_toUInt32, reread, build32_toNat]
      omega
    rw [← hlow, hbuild]
  · intro h
    have hv := build32_halves v
    rw [reread, ← h]
    rwa [← h] at hv

/-- **THE INTEGER CODEC**: values of mixed widths round-trip exactly when the
    operands of `build` are evaluated left first or every 64-bit value among
    them has equal halves. -/
theorem integers_roundTrip_iff (order : ArgOrder) (indeterminate : Nat → UInt8)
    (vs : List Value) :
    RoundTrips order indeterminate vs ↔
      order = .leftFirst ∨
        ∀ v : UInt64, Value.u64 v ∈ vs → v.toUInt32 = (v >>> 32).toUInt32 := by
  rw [roundTrips_iff_received]
  cases order with
  | leftFirst =>
      have hid : received .leftFirst = id := by
        funext v
        cases v <;> rfl
      simp [hid]
  | rightFirst =>
      have hmap : vs.map (received .rightFirst) = vs
          ↔ ∀ w ∈ vs, received .rightFirst w = w := by
        have h := List.map_inj_left (l := vs) (f := received .rightFirst) (g := id)
        rwa [List.map_id] at h
      rw [hmap]
      constructor
      · intro h
        refine Or.inr fun v hv => ?_
        have hr : Value.u64 (reread .rightFirst v) = .u64 v := h (.u64 v) hv
        exact reread_rightFirst_eq.mp (Value.u64.inj hr)
      · rintro (h | h) w hw
        · exact nomatch h
        · cases w with
          | u64 v => exact congrArg Value.u64 (reread_rightFirst_eq.mpr (h v hw))
          | _ => rfl

/-- Right first, the value 1 comes back as 2^32. -/
theorem integers_swapped_rightFirst :
    ¬ RoundTrips .rightFirst (fun _ => 0) [.u64 1] := by
  rw [roundTrips_iff_received]
  decide

end KzrIntegerCodec
