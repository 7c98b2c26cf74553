import Kzr.SenderProofs
import Kzr.SimulationProofs

/-! # What becomes of the bytes that are read

    `Connection::read` throws whatever it is given, so a program that reads again and
    again gets exceptions only.  The bytes are gone all the same: each call of `::read`
    takes some off its descriptor, and the exception says how many.

    A ledger of a kernel is the record of what `::read` has delivered.  Whoever reads and
    writes on whatever connections, the exceptions of the reads on a descriptor account
    for all that has been delivered on it, byte for byte and in order. -/

namespace KzrLedger

open LittleEndian Simulation KzrMessageStream KzrPrimitive
open KzrConnection hiding Call
open KzrFileHandleConnection KzrSender

variable {σ : Type}

/-! ## What an exception says -/

/-- The exception of a first count other than four. -/
def notFour (bytesRead : UInt64) : Exception :=
  ⟨"Expected to read 4 bytes but only read " ++ toString bytesRead ++ "!"⟩

/-- The exception of a size that has no room for itself. -/
def tooSmall : Exception := ⟨"Expected at least 4 bytes as the size of the message!"⟩

/-- The exception of a second count that is not the size. -/
def notAll (bytesRead2 : UInt64) (messageSize : UInt32) : Exception :=
  ⟨"only able to read " ++ toString bytesRead2 ++ "/" ++ toString messageSize ++ " bytes!"⟩

/-- The exception of a second count that is the size and not four less. -/
def notEnough : Exception := ⟨"Not enough bytes read!"⟩

/-- The count is how many bytes were taken, or what a failed call becomes. -/
def Reports (count : UInt64) (taken : Nat) : Prop :=
  count.toNat = taken ∨ taken = 0 ∧ 9223372036854775808 ≤ count.toNat

/-- The bytes a read has taken by the time it throws. -/
inductive Says : Exception → Bytes → Prop where
  | notFour {k : UInt64} {lost : Bytes} : Reports k lost.length → k ≠ 4 → Says (notFour k) lost
  | tooSmall {front : Bytes} : front.length = 4 → value front < 4 → Says tooSmall front
  | notAll {k : UInt64} {size : UInt32} {front rest : Bytes} : front.length = 4 →
      size.toNat = value front → 4 ≤ value front → Reports k rest.length → k.toNat ≠ value front →
      Says (notAll k size) (front ++ rest)
  | notEnough {front rest : Bytes} : front.length = 4 → 4 ≤ value front →
      rest.length = value front → Says notEnough (front ++ rest)

/-! ## One read -/

/-- A record of what `::read` delivers on each descriptor: as many bytes as it answers,
    none when it fails, and the string holds them as far as its size goes. -/
structure Ledger (kernel : Kernel σ) where
  gone  : Int → σ → Bytes
  write : ∀ fd data world fd', gone fd' (kernel.write fd data world).2 = gone fd' world
  read  : ∀ fd data world, ∃ got : Bytes,
    got.length = (kernel.read fd data world).1.1.toInt.toNat
      ∧ (0 ≤ (kernel.read fd data world).1.1.toInt →
          (kernel.read fd data world).1.2 = storeAt data got)
      ∧ ∀ fd', gone fd' (kernel.read fd data world).2
          = gone fd' world ++ if fd' = fd then got else []

theorem nonneg_of_toUInt64 {answer : Int64} (h : answer.toUInt64.toNat = answer.toInt.toNat) :
    0 ≤ answer.toInt := by
  rcases answer_sign answer with ⟨hpos, -⟩ | ⟨hneg, hbig, -⟩
  · exact hpos
  · omega

/-- Between these lines the connection has taken `got` off its descriptor. -/
def Takes {kernel : Kernel σ} (ledger : Ledger kernel) (this : FileHandleConnection)
    (lines lines' : Lines σ) (got : Bytes) : Prop :=
  ∀ fd, ledger.gone fd lines'.world
    = ledger.gone fd lines.world ++ if fd = this.handle then got else []

theorem Takes.append {kernel : Kernel σ} {ledger : Ledger kernel} {this : FileHandleConnection}
    {lines lines' lines'' : Lines σ} {front rest : Bytes}
    (hfront : Takes ledger this lines lines' front)
    (hrest : Takes ledger this lines' lines'' rest) :
    Takes ledger this lines lines'' (front ++ rest) := by
  intro fd
  rw [hrest fd, hfront fd, List.append_assoc]
  by_cases hfd : fd = this.handle
  · rw [if_pos hfd, if_pos hfd, if_pos hfd]
  · rw [if_neg hfd, if_neg hfd, if_neg hfd, List.append_nil]

/-- What a call of a connection takes, and what it says. -/
theorem rawRead_takes {kernel : Kernel σ} (ledger : Ledger kernel) (this : FileHandleConnection)
    {data string : Bytes} {lines lines' : Lines σ} {count : UInt64}
    (h : this.rawRead kernel.onLines data lines = ((count, string), lines')) :
    ∃ got : Bytes, Takes ledger this lines lines' got ∧ Reports count got.length
      ∧ (count.toNat = got.length → string = storeAt data got) := by
  rw [FileHandleConnection.rawRead] at h
  by_cases hv : this.isValidHandle = true
  · rw [if_pos hv] at h
    obtain ⟨got, hlen, hstore, hgone⟩ := ledger.read this.handle data lines.world
    have hcases := answer_cases (kernel.read this.handle data lines.world).1.1
    rw [← hlen] at hcases
    cases h
    exact ⟨got, hgone, hcases, fun hcount => hstore (nonneg_of_toUInt64 (hcount.trans hlen))⟩
  · rw [if_neg hv] at h
    cases h
    refine ⟨[], fun fd => ?_, Or.inl rfl, fun _ => ?_⟩
    · rw [ite_self, List.append_nil]
    · simp [storeAt]

/-- The size in the four characters looked at. -/
theorem build8x4_storeAt {got data : Bytes} (hgot : got.length = 4) (hdata : 4 ≤ data.length) :
    (build8x4 ((storeAt data got).getD 0 0) ((storeAt data got).getD 1 0)
      ((storeAt data got).getD 2 0) ((storeAt data got).getD 3 0)).toNat = value got := by
  match got, hgot with
  | [a, b, c, d], _ =>
      have htake : List.take data.length [a, b, c, d] = [a, b, c, d] :=
        List.take_of_length_le hdata
      rw [storeAt, htake]
      exact build8x4_eq_value a b c d

/-- A count small enough is what was taken. -/
theorem Reports.eq {count : UInt64} {taken : Nat} (h : Reports count taken)
    (hcount : count.toNat < 9223372036854775808) : count.toNat = taken := by
  rcases h with h | ⟨-, h⟩
  · exact h
  · omega

/-- The second call, after four bytes that spell a size. -/
theorem rest_says {kernel : Kernel σ} (ledger : Ledger kernel) (this : FileHandleConnection)
    {data string front : Bytes} {lines lines' : Lines σ} {count : UInt64} {size : UInt32}
    (h : this.rawRead kernel.onLines data lines = ((count, string), lines'))
    (hfront : front.length = 4) (hsize : size.toNat = value front) (hmin : 4 ≤ value front) :
    ∃ rest, Takes ledger this lines lines' rest
      ∧ Says (if count = size.toUInt64 then notEnough else notAll count size) (front ++ rest) := by
  obtain ⟨rest, htakes, hcount, -⟩ := rawRead_takes ledger this h
  refine ⟨rest, htakes, ?_⟩
  have hlt := size.toNat_lt
  by_cases hall : count = size.toUInt64
  · rw [if_pos hall]
    have hnat : count.toNat = size.toNat := by rw [hall, UInt32.toNat_toUInt64]
    have hrest := hcount.eq (by omega)
    exact .notEnough hfront hmin (by omega)
  · rw [if_neg hall]
    refine .notAll hfront hsize hmin hcount fun hnat => hall ?_
    apply UInt64.toNat_inj.mp
    rw [hnat, UInt32.toNat_toUInt64, hsize]

/-- **A READ TAKES WHAT ITS EXCEPTION SAYS**, and leaves its stream alone. -/
theorem read_says {kernel : Kernel σ} (ledger : Ledger kernel) (this : FileHandleConnection)
    (msg : MessageStream) (lines : Lines σ) :
    ∃ ex lines' lost, (connectionOn kernel this).read (lines, msg) = .error ex (lines', msg)
      ∧ Says ex lost ∧ Takes ledger this lines lines' lost := by
  rcases h1 : this.rawRead kernel.onLines (List.replicate 32 4) lines
    with ⟨⟨bytesRead, sizeAcquire⟩, lines1⟩
  obtain ⟨front, htakes, hcount, hstore⟩ := rawRead_takes ledger this h1
  have hraw : (connectionOn kernel this).rawRead (List.replicate 32 4) lines
      = ((bytesRead, sizeAcquire), lines1) := h1
  simp only [Connection.read, hraw]
  by_cases hfour : bytesRead = 4
  · subst hfour
    have hlen : front.length = 4 := (hcount.eq (by decide)).symm
    obtain ⟨size, hdef⟩ : ∃ size, build8x4 (sizeAcquire.getD 0 0) (sizeAcquire.getD 1 0)
      (sizeAcquire.getD 2 0) (sizeAcquire.getD 3 0) = size := ⟨_, rfl⟩
    have hsize : size.toNat = value front := by
      rw [← hdef, hstore hlen.symm]
      exact build8x4_storeAt hlen (by decide)
    rw [if_neg (not_not.mpr rfl), hdef]
    by_cases hsmall : size < 4
    · rw [if_pos hsmall]
      have hvalue : value front < 4 := hsize ▸ hsmall
      exact ⟨_, _, front, rfl, .tooSmall hlen hvalue, htakes⟩
    · have hvalue : 4 ≤ value front := hsize ▸ Nat.le_of_not_lt hsmall
      rcases h2 : this.rawRead kernel.onLines (List.replicate 32 (size - 4).toUInt8) lines1
        with ⟨⟨bytesRead2, storage⟩, lines2⟩
      have hraw2 : (connectionOn kernel this).rawRead
          (List.replicate 32 (size - 4).toUInt8) lines1 = ((bytesRead2, storage), lines2) := h2
      obtain ⟨rest, hrest, hsays⟩ := rest_says ledger this h2 hlen hsize hvalue
      have hboth := htakes.append hrest
      rw [if_neg hsmall]
      simp only [hraw2]
      by_cases hall : bytesRead2 = size.toUInt64
      · -- the last check adds the first four bytes once more
        rw [if_pos hall] at hsays
        rw [if_neg (not_not.mpr hall), hall, if_pos (add_four_ne _)]
        exact ⟨_, _, _, rfl, hsays, hboth⟩
      · rw [if_neg hall] at hsays
        rw [if_pos hall]
        exact ⟨_, _, _, rfl, hsays, hboth⟩
  · rw [if_pos hfour]
    exact ⟨_, _, front, rfl, .notFour hcount hfour, htakes⟩

/-! ## Runs -/

/-- A write is one call, or none. -/
theorem attempt_snd (c : Connection σ) (msg : MessageStream) (world : σ) :
    (attempt c msg world).2 = world
      ∨ ∃ data, (attempt c msg world).2 = (c.rawWrite data world).2 := by
  simp only [attempt, Connection.write]
  by_cases hlen : msg.str.length ≠ (UInt32.ofNat msg.str.length).toNat
  · rw [if_pos hlen]
    exact Or.inl rfl
  · rw [if_neg hlen]
    right
    refine ⟨[(UInt32.ofNat msg.str.length + 4).toUInt8,
      ((UInt32.ofNat msg.str.length + 4) >>> 8).toUInt8,
      ((UInt32.ofNat msg.str.length + 4) >>> 16).toUInt8,
      ((UInt32.ofNat msg.str.length + 4) >>> 24).toUInt8] ++ msg.str, ?_⟩
    split <;> rfl

/-- A write takes nothing off any descriptor. -/
theorem gone_attempt {kernel : Kernel σ} (ledger : Ledger kernel) (this : FileHandleConnection)
    (msg : MessageStream) (lines : Lines σ) (fd : Int) :
    ledger.gone fd (attempt (connectionOn kernel this) msg lines).2.world
      = ledger.gone fd lines.world := by
  rcases attempt_snd (connectionOn kernel this) msg lines with h | ⟨data, h⟩
  · rw [h]
  · rw [h]
    show ledger.gone fd (this.rawWrite kernel.onLines data lines).2.world = _
    rw [FileHandleConnection.rawWrite]
    by_cases hv : this.isValidHandle = true
    · rw [if_pos hv]
      exact ledger.write this.handle data lines.world fd
    · rw [if_neg hv]

/-- What a call and its result say of the bytes gone from a descriptor. -/
inductive Accounts (fd : Int) :
    (FileHandleConnection × Call) × Option Exception → Bytes → Prop where
  | write {this : FileHandleConnection} {msg : MessageStream} {result : Option Exception} :
      Accounts fd ((this, .write msg), result) []
  | read {this : FileHandleConnection} {msg : MessageStream} {ex : Exception} {lost : Bytes} :
      this.handle = fd → Says ex lost → Accounts fd ((this, .read msg), some ex) lost
  | other {this : FileHandleConnection} {msg : MessageStream} {ex : Exception} :
      this.handle ≠ fd → Accounts fd ((this, .read msg), some ex) []

/-- The calls with their results. -/
def logged (kernel : Kernel σ) (call : FileHandleConnection × Call) (lines : Lines σ) :
    ((FileHandleConnection × Call) × Option Exception) × Lines σ :=
  ((call, (perform kernel call lines).1), (perform kernel call lines).2)

/-- One call accounts for what it takes. -/
theorem logged_accounts {kernel : Kernel σ} (ledger : Ledger kernel) (fd : Int)
    (call : FileHandleConnection × Call) (lines : Lines σ) :
    ∃ lost, Accounts fd (logged kernel call lines).1 lost
      ∧ ledger.gone fd (logged kernel call lines).2.world = ledger.gone fd lines.world ++ lost := by
  obtain ⟨this, msg | msg⟩ := call
  · refine ⟨[], .write, ?_⟩
    rw [List.append_nil]
    exact gone_attempt ledger this msg lines fd
  · obtain ⟨ex, lines', lost, hread, hsays, htakes⟩ := read_says ledger this msg lines
    have hlogged : logged kernel (this, .read msg) lines
        = (((this, .read msg), some ex), lines') := by
      simp only [logged, perform, hread, ended]
    rw [hlogged]
    have hgone := htakes fd
    by_cases hfd : this.handle = fd
    · rw [if_pos hfd.symm] at hgone
      exact ⟨lost, .read hfd hsays, hgone⟩
    · rw [if_neg (Ne.symm hfd)] at hgone
      exact ⟨[], .other hfd, hgone⟩

/-- **ALL THAT IS READ IS LOST, AND ACCOUNTED FOR**: whoever writes and reads on
    whatever connections and in whatever order, every read throws, and what has been
    delivered on a descriptor is what the exceptions of the reads on it say, one after
    the other. -/
theorem losses_accounted {kernel : Kernel σ} (ledger : Ledger kernel)
    (calls : List (FileHandleConnection × Call)) (lines : Lines σ) (fd : Int) :
    ∃ losses : List Bytes,
      List.Forall₂ (Accounts fd) (answers (logged kernel) calls lines) losses
        ∧ ledger.gone fd (final (logged kernel) calls lines).world
          = ledger.gone fd lines.world ++ losses.flatten :=
  @answers_account _ _ _ _ (logged kernel) (fun lines => ledger.gone fd lines.world) (Accounts fd)
    (logged_accounts ledger fd) calls lines

/-- What is to come on descriptor 3, and what has been delivered of it. -/
abbrev Feed := Bytes × Bytes

/-- `::read` delivers at most four bytes at a time, on descriptor 3 only. -/
def readFour (fd : Int) (data : Bytes) (feed : Feed) : (Int64 × Bytes) × Feed :=
  if fd = 3 then
    ((Int64.ofNat (feed.1.take 4).length, storeAt data (feed.1.take 4)),
      (feed.1.drop 4, feed.2 ++ feed.1.take 4))
  else ((-1, data), feed)

/-- A kernel that delivers four bytes at a time, on one descriptor. -/
def fourAtATime : Kernel Feed where
  write := fun _ _ feed => (0, feed)
  read := readFour
  write_le := fun _ data _ => Int.natCast_nonneg data.length

/-- What it has delivered. -/
def delivered (fd : Int) (feed : Feed) : Bytes := if fd = 3 then feed.2 else []

theorem readFour_delivers (fd : Int) (data : Bytes) (feed : Feed) :
    ∃ got : Bytes, got.length = (readFour fd data feed).1.1.toInt.toNat
      ∧ (0 ≤ (readFour fd data feed).1.1.toInt → (readFour fd data feed).1.2 = storeAt data got)
      ∧ ∀ fd', delivered fd' (readFour fd data feed).2
          = delivered fd' feed ++ if fd' = fd then got else [] := by
  by_cases hfd : fd = 3
  · subst hfd
    have hlen := List.length_take_le 4 feed.1
    refine ⟨feed.1.take 4, ?_, fun _ => rfl, fun fd' => ?_⟩
    · show _ = (Int64.ofNat (feed.1.take 4).length).toInt.toNat
      rw [Int64.toInt_ofNat_of_lt (by omega), Int.toNat_natCast]
    · by_cases hfd' : fd' = 3
      · simp [delivered, readFour, hfd']
      · simp [delivered, hfd']
  · refine ⟨[], ?_, fun hneg => ?_, fun fd' => ?_⟩
    · rw [readFour, if_neg hfd]
      rfl
    · rw [readFour, if_neg hfd] at hneg
      have hfailed : ¬ 0 ≤ (-1 : Int64).toInt := by decide
      exact absurd hneg hfailed
    · rw [readFour, if_neg hfd, ite_self, List.append_nil]

/-- It delivers what it answers. -/
def feedLedger : Ledger fourAtATime where
  gone := delivered
  write := fun _ _ _ _ => rfl
  read := readFour_delivers

/-- The frame of an empty message and four bytes of the next one are taken by one read,
    which misses four bytes. -/
theorem losses_accounted_frame :
    let lines : Lines Feed := ⟨([4, 0, 0, 0, 5, 0, 0, 0, 7], []), fun _ => []⟩
    let calls : List (FileHandleConnection × Call) := [(⟨3, true⟩, .read (.new fun _ => 0))]
    (∃ losses : List Bytes,
      List.Forall₂ (Accounts 3) (answers (logged fourAtATime) calls lines) losses
        ∧ feedLedger.gone 3 (final (logged fourAtATime) calls lines).world = [] ++ losses.flatten)
      ∧ (answers (logged fourAtATime) calls lines).map Prod.snd = [some notEnough]
      ∧ (final (logged fourAtATime) calls lines).world = ([7], [4, 0, 0, 0, 5, 0, 0, 0]) :=
  ⟨losses_accounted feedLedger _ _ 3, by decide, by decide⟩

end KzrLedger
