import Kzr.ConnectionProofs

/-! # Connections on a file descriptor

    `FileHandleConnection` passes the two raw calls on to `::write` and
    `::read`.  A read removes from the bytes pending on the descriptor as many
    as it asks for, or all of them, and it asks for the capacity of the string
    it is handed, not for its size.

    `Connection::read` hands over a string of 32 characters for the four bytes
    of the count, so with more than one frame pending it is the capacity of
    that string, and not the frame, that decides what is taken. -/

namespace KzrFileHandleConnection

open LittleEndian KzrMessageStream KzrConnection

variable {σ : Type}

/-- A descriptor, and whether the destructor closes it. -/
structure FileHandleConnection where
  handle  : Int
  destroy : Bool := true
deriving DecidableEq

/-- `getHandle()`. -/
def FileHandleConnection.getHandle (this : FileHandleConnection) : Int := this.handle

/-- `isValidHandle()`. -/
def FileHandleConnection.isValidHandle (this : FileHandleConnection) : Bool :=
  decide (0 ≤ this.handle)

/-- `::write` and `::read`: what they answer for a descriptor, an `ssize_t`, and for
    a read also what the string then holds. -/
structure SystemCalls (σ : Type) where
  write : Int → Bytes → σ → Int64 × σ
  read  : Int → Bytes → σ → (Int64 × Bytes) × σ

/-- A failed `::write` answers -1, which becomes the greatest size. -/
def FileHandleConnection.rawWrite (calls : SystemCalls σ) (this : FileHandleConnection)
    (data : Bytes) : σ → UInt64 × σ := fun world =>
  if this.isValidHandle then
    match calls.write this.handle data world with
    | (answer, world) => (answer.toUInt64, world)
  else (0, world)

/-- A failed `::read` answers -1 in the same way. -/
def FileHandleConnection.rawRead (calls : SystemCalls σ) (this : FileHandleConnection)
    (data : Bytes) : σ → (UInt64 × Bytes) × σ := fun world =>
  if this.isValidHandle then
    match calls.read this.handle data world with
    | ((answer, data), world) => ((answer.toUInt64, data), world)
  else ((0, data), world)

/-- The subclass of `Connection` with these two. -/
def FileHandleConnection.connection (calls : SystemCalls σ) (this : FileHandleConnection) :
    Connection σ where
  rawWrite := this.rawWrite calls
  rawRead := this.rawRead calls

/-! ## A descriptor with bytes pending -/

/-- What is behind a descriptor: the bytes `::read` will deliver, what `::write`
    answers to some data, and by how much the capacity of each string read into
    exceeds its size. -/
structure World where
  pending : Bytes
  answer  : Bytes → Int64
  slack   : Nat → Nat

/-- A read asks for the capacity of the string, and what lands behind the size of
    the string is not part of it. -/
def queued : SystemCalls World where
  write := fun _ data world => (world.answer data, world)
  read := fun _ data world =>
    let capacity := data.length + world.slack 0
    let got := world.pending.take capacity
    ((Int64.ofNat got.length, storeAt data got),
      { world with
        pending := world.pending.drop capacity
        slack := fun k => world.slack (k + 1) })

/-! ## Reading past a frame -/

/-- The world after a read, whether it returns or throws. -/
def afterRead (this : FileHandleConnection) (world : World) (msg : MessageStream) : World :=
  match (this.connection queued).read (world, msg) with
  | .ok () s    => s.1
  | .error _ s  => s.1

theorem pending_rawRead {this : FileHandleConnection} (hv : this.isValidHandle = true)
    (data : Bytes) (world : World) :
    (this.rawRead queued data world).2.pending
      = world.pending.drop (data.length + world.slack 0) := by
  simp only [FileHandleConnection.rawRead, queued, hv, if_true]

/-- The first call takes what the capacity of its string allows; there is a
    second one only when that came to four bytes. -/
theorem afterRead_cases {this : FileHandleConnection} (hv : this.isValidHandle = true)
    (world : World) (msg : MessageStream) :
    ∃ more, (afterRead this world msg).pending
        = (world.pending.drop (32 + world.slack 0)).drop more
      ∧ (more = 0
        ∨ UInt64.ofNat (world.pending.take (32 + world.slack 0)).length = 4) := by
  have hcap : (List.replicate 32 (4 : UInt8)).length + world.slack 0 = 32 + world.slack 0 := rfl
  have hfirst := pending_rawRead hv (List.replicate 32 4) world
  have hcount : ((this.connection queued).rawRead (List.replicate 32 4) world).1.1
      = UInt64.ofNat (world.pending.take (32 + world.slack 0)).length := by
    simp only [FileHandleConnection.connection, FileHandleConnection.rawRead, queued, hv, if_true,
      hcap]
    rfl
  obtain ⟨ex, world', hthrow, hcalls⟩ := read_cases (this.connection queued) world msg
  have hafter : afterRead this world msg = world' := by
    simp only [afterRead, hthrow]
  rw [hafter]
  rcases hcalls with rfl | ⟨hfour, data, rfl⟩
  · exact ⟨0, hfirst, Or.inl rfl⟩
  · have hsecond := pending_rawRead hv data (this.rawRead queued (List.replicate 32 4) world).2
    rw [hfirst, hcap] at hsecond
    exact ⟨_, hsecond, Or.inr (hcount.symm.trans hfour)⟩

theorem drop_suffix_iff {α : Type} {front rest : List α} {k : Nat} :
    rest <:+ (front ++ rest).drop k ↔ rest = [] ∨ k ≤ front.length := by
  constructor
  · intro h
    have hlen := h.length_le
    rw [List.length_drop, List.length_append] at hlen
    by_cases hk : k ≤ front.length
    · exact Or.inr hk
    · exact Or.inl (List.eq_nil_of_length_eq_zero (by omega))
  · rintro (rfl | hk)
    · exact List.nil_suffix
    · rw [List.drop_append_of_le_length hk]
      exact List.suffix_append _ _

/-- **WHEN A READ STAYS INSIDE ITS FRAME**: when nothing is pending behind it, or
    the capacity of the string handed over first does not reach past it. -/
theorem read_inside_frame_iff {this : FileHandleConnection} (hv : this.isValidHandle = true)
    {world : World} {payload rest : Bytes} (hlen : payload.length + 4 < 4294967296)
    (hpending : world.pending = frame payload ++ rest) (msg : MessageStream) :
    rest <:+ (afterRead this world msg).pending
      ↔ rest = [] ∨ 32 + world.slack 0 ≤ (frame payload).length := by
  obtain ⟨more, hafter, hmore⟩ := afterRead_cases hv world msg
  rw [hafter, hpending]
  constructor
  · intro h
    exact drop_suffix_iff.mp (h.trans (List.drop_suffix more _))
  · rintro (rfl | hcap)
    · exact List.nil_suffix
    · -- the first call comes to more than four bytes, so there is no second one
      have hgot : (world.pending.take (32 + world.slack 0)).length = 32 + world.slack 0 := by
        rw [hpending]
        exact List.length_take_of_le (by rw [List.length_append]; omega)
      have hnone : more = 0 := by
        rcases hmore with hnone | hfour
        · exact hnone
        · have hnat := congrArg UInt64.toNat hfour
          have hsize : UInt64.size = 18446744073709551616 := rfl
          have hframe := length_frame payload
          rw [hgot, UInt64.toNat_ofNat_of_lt' (by omega)] at hnat
          have hfour' : (4 : UInt64).toNat = 4 := rfl
          omega
      rw [hnone, List.drop_zero]
      exact drop_suffix_iff.mpr (Or.inr hcap)

/-- A frame of 32 bytes is taken without the byte behind it. -/
theorem read_inside_frame_long :
    let world : World :=
      { pending := frame (List.replicate 28 0) ++ [9], answer := fun _ => 0, slack := fun _ => 0 }
    [9] <:+ (afterRead ⟨3, true⟩ world (.new fun _ => 0)).pending :=
  (read_inside_frame_iff rfl (by decide) rfl _).mpr (Or.inr (by decide))

/-- Of two frames without a payload, a read of the first removes both. -/
theorem read_takes_next_frame :
    let world : World :=
      { pending := frame [] ++ frame [], answer := fun _ => 0, slack := fun _ => 0 }
    (afterRead ⟨3, true⟩ world (.new fun _ => 0)).pending = []
      ∧ ¬ frame [] <:+ (afterRead ⟨3, true⟩ world (.new fun _ => 0)).pending := by
  intro world
  have hgone : (afterRead ⟨3, true⟩ world (.new fun _ => 0)).pending = [] := by decide
  refine ⟨hgone, ?_⟩
  rw [hgone]
  decide

end KzrFileHandleConnection
