import Kzr.SocketConnectionProofs

/-! # Unix domain sockets

    A subclass of `SocketConnection` whose address is a path.  The path reaches
    the system by two ways: copied into the 108 bytes of a `sockaddr_un`, for
    `connect` and `bind`, and as a C string, for `unlink` and `chmod`.

    Two results: what a failing system call does to the object, over whole runs
    of dials and announces; and for which addresses the two ways lead to the
    same path. -/

namespace KzrUnixDomainSocketConnection

open KzrMessageStream KzrFileHandleConnection KzrSocketConnection Runs

/-! ## System calls -/

/-- `struct sockaddr_un`. -/
structure SockaddrUn where
  sun_family  : UInt16
  sun_path    : Bytes
  length_path : sun_path.length = 108

/-- The system calls of the class, with what they are handed. -/
inductive SysCall where
  | connect (sockfd : Int) (addr : SockaddrUn) (addrlen : UInt32)
  | ignoreSigpipe
  | setsockopt (sockfd : Int)
  | unlink (path : Bytes)
  | bind (sockfd : Int) (addr : SockaddrUn) (addrlen : UInt32)
  | chmod (path : Bytes)
  | listen (sockfd : Int) (backlog : Nat)

/-- What the system answers to the calls of one request, and what lies in memory
    behind the `sockaddr_un` on its stack. -/
structure Answers where
  connect    : Int := 0
  setsockopt : Int := 0
  bind       : Int := 0
  listen     : Int := 0
  behind     : Bytes := []

/-- `AF_UNIX`. -/
def afUnix : UInt16 := 1

/-- The characters in front of the first NUL. -/
def cString (memory : Bytes) : Bytes := memory.takeWhile (· ≠ 0)

/-- `SUN_LEN`: the offset of the path, and the characters up to a NUL, wherever
    that is. -/
def sunLen (sa : SockaddrUn) (behind : Bytes) : UInt32 :=
  UInt32.ofNat (2 + (cString (sa.sun_path ++ behind)).length)

/-- The structure is cleared, then filled with as much of the address as its
    path has room for. -/
def setupStructures (this : SocketConnection) (behind : Bytes) : SockaddrUn × UInt32 :=
  let copied := this.getAddress.take 108
  let sa : SockaddrUn :=
    { sun_family := afUnix
      sun_path := copied ++ List.replicate (108 - copied.length) 0
      length_path := by
        have hle : copied.length ≤ 108 := List.length_take_le 108 this.getAddress
        rw [List.length_append, List.length_replicate]
        omega }
  (sa, sunLen sa behind)

/-- `performDial()`: `::connect`, whose answer must be zero. -/
def performDial (answers : Answers) : Method (List SysCall) := fun (this, calls) =>
  let (sa, salen) := setupStructures this answers.behind
  let calls := calls ++ [.connect this.getHandle sa salen]
  if answers.connect ≠ 0 then
    .error ⟨"Could not connect to unix domain socket"⟩ (this, calls)
  else .ok () (this, calls)

/-- The backlog handed to `::listen`. -/
def maximumCacheSize : Nat := 32

/-- `performAnnounce()`: of six calls the answers of three are looked at. -/
def performAnnounce (answers : Answers) : Method (List SysCall) := fun (this, calls) =>
  let (sa, salen) := setupStructures this answers.behind
  let calls := calls ++ [.ignoreSigpipe, .setsockopt this.getHandle]
  if answers.setsockopt < 0 then
    .error ⟨"Could not set socket options!"⟩ (this, calls)
  else
    -- whether the path could be removed is not looked at
    let calls := calls ++ [.unlink (cString this.getAddress), .bind this.getHandle sa salen]
    if answers.bind < 0 then
      .error ⟨"Could not bind socket!"⟩ (this, calls)
    else
      let calls := calls ++ [.chmod (cString this.getAddress),
        .listen this.getHandle maximumCacheSize]
      if answers.listen < 0 then
        .error ⟨"Could not listen on socket!"⟩ (this, calls)
      else .ok () (this, calls)

theorem dial_keeps (answers : Answers) (s : SocketConnection × List SysCall) :
    (after (performDial answers s)).1 = s.1 := by
  simp only [performDial]
  split <;> rfl

theorem announce_keeps (answers : Answers) (s : SocketConnection × List SysCall) :
    (after (performAnnounce answers s)).1 = s.1 := by
  simp only [performAnnounce]
  split_ifs <;> rfl

/-- The subclass for addresses that are paths. -/
def unixDomainSocketConnection : Subclass Answers (List SysCall) where
  performDial := performDial
  performAnnounce := performAnnounce
  dial_keeps := dial_keeps
  announce_keeps := announce_keeps

/-! ## Failing system calls -/

/-- Every system call that is checked succeeds. -/
def Granted : Request → Answers → Prop
  | .dial _, answers     => answers.connect = 0
  | .announce _, answers => 0 ≤ answers.setsockopt ∧ 0 ≤ answers.bind ∧ 0 ≤ answers.listen

/-- A request returns exactly when the system grants it. -/
theorem perform_ok_iff (r : Request) (answers : Answers) (s : SocketConnection × List SysCall) :
    (∃ s', unixDomainSocketConnection.perform answers r s = .ok () s') ↔ Granted r answers := by
  cases r with
  | dial addr =>
      show (∃ s', performDial answers s = .ok () s') ↔ answers.connect = 0
      simp only [performDial]
      by_cases h : answers.connect = 0 <;> simp [h]
  | announce addr =>
      show (∃ s', performAnnounce answers s = .ok () s') ↔ _
      simp only [performAnnounce, Granted]
      split_ifs with hsetsockopt hbind hlisten
      · exact iff_of_false (by rintro ⟨s', ⟨⟩⟩) (by omega)
      · exact iff_of_false (by rintro ⟨s', ⟨⟩⟩) (by omega)
      · exact iff_of_false (by rintro ⟨s', ⟨⟩⟩) (by omega)
      · exact iff_of_true ⟨_, rfl⟩ (by omega)

/-- The calls whose failure does the damage are those of a request that the
    object has not turned away. -/
theorem settled_iff (call : Request × Answers) (s : Session (List SysCall)) :
    Settled unixDomainSocketConnection call s ↔ Refuses s.this ∨ Granted call.1 call.2 :=
  or_congr Iff.rfl (perform_ok_iff call.1 call.2 _)

/-- **A FAILED DIAL OR ANNOUNCE CHANGES NOTHING**, throughout a run, exactly when
    none of the requests that get past the guards meets a failing system call. -/
theorem failures_change_nothing_iff (fd : Int) (calls : List (Request × Answers)) :
    let start : Session (List SysCall) := ⟨.new fd, [], []⟩
    (EveryStep (step unixDomainSocketConnection) (ThrowKeeps unixDomainSocketConnection)
          calls start
        ∧ EveryState (step unixDomainSocketConnection) Faithful calls start)
      ↔ EveryStep (step unixDomainSocketConnection)
          (fun call s => Refuses s.this ∨ Granted call.1 call.2) calls start := by
  intro start
  rw [faithful_iff]
  exact everyStep_congr settled_iff calls start

/-- After a dial that could not connect, the mode is set, no dial has returned,
    and the next one is turned away. -/
theorem failed_dial_sets_mode :
    let start : Session (List SysCall) := ⟨.new 3, [], []⟩
    let failed : Request × Answers := (.dial [47], { connect := -1 })
    let s := step unixDomainSocketConnection failed start
    s.this.mode = .ConnectTo ∧ s.returned = []
      ∧ ¬ ThrowKeeps unixDomainSocketConnection failed start ∧ ¬ Faithful s
      ∧ ∃ ex, unixDomainSocketConnection.request {} (.dial [48]) (s.this, s.system)
          = .error ex (s.this, s.system) := by
  intro start failed s
  have hmode : s.this.mode = .ConnectTo := rfl
  have hreturned : s.returned = [] := rfl
  refine ⟨hmode, hreturned, ?_, ?_, _, rfl⟩
  · intro h
    exact nomatch (h _ _ rfl).1
  · rintro ⟨hdial, -, -⟩
    obtain ⟨addr, hmem⟩ := hdial.mp hmode
    rw [hreturned] at hmem
    exact nomatch hmem

/-! ## The path of an address -/

/-- The path a `sockaddr_un` stands for. -/
def pathOf (sa : SockaddrUn) : Bytes := cString sa.sun_path

/-- The structure and its length hold `addr`, NUL and all. -/
def Holds (sa : SockaddrUn) (salen : UInt32) (addr : Bytes) : Prop :=
  0 ∈ sa.sun_path ∧ pathOf sa = addr ∧ salen.toNat = 2 + addr.length

/-- The call is handed a path. -/
def NamesPath : SysCall → Prop
  | .connect _ _ _ => True
  | .unlink _      => True
  | .bind _ _ _    => True
  | .chmod _       => True
  | _              => False

/-- If the call is handed a path, it is `addr`. -/
def PathIs (addr : Bytes) : SysCall → Prop
  | .connect _ sa salen => Holds sa salen addr
  | .unlink path        => path = addr
  | .bind _ sa salen    => Holds sa salen addr
  | .chmod path         => path = addr
  | _                   => True

/-- The `sockaddr_un` a call is handed. -/
def given : SysCall → Option SockaddrUn
  | .connect _ sa _ => some sa
  | .bind _ sa _    => some sa
  | _               => none

/-- The system calls of a request. -/
def callsOf (answers : Answers) (r : Request) (this : SocketConnection) : List SysCall :=
  (after (unixDomainSocketConnection.request answers r (this, []))).2

/-- One path per socket: the request throws before a call that is handed a path,
    or every path handed over is its address; and no request for another
    address connects to or binds that path. -/
def OnePath (answers : Answers) (r : Request) (this : SocketConnection) : Prop :=
  ((∃ ex s, unixDomainSocketConnection.request answers r (this, []) = .error ex s)
        ∧ (∀ call ∈ callsOf answers r this, ¬ NamesPath call)
      ∨ ∀ call ∈ callsOf answers r this, PathIs r.address call)
    ∧ ∀ answers' r' this', 0 ∉ r'.address → r'.address ≠ r.address →
      ∀ call ∈ callsOf answers r this, ∀ call' ∈ callsOf answers' r' this',
        ∀ sa ∈ given call, ∀ sa' ∈ given call', pathOf sa ≠ pathOf sa'

theorem cString_append {s t : Bytes} (h : 0 ∉ s) : cString (s ++ t) = s ++ cString t := by
  refine List.takeWhile_append_of_pos ?_
  intro b hb
  simpa using fun h0 : b = 0 => h (h0 ▸ hb)

theorem cString_eq {s : Bytes} (h : 0 ∉ s) : cString s = s := by
  have happend : cString (s ++ []) = s ++ [] := cString_append h
  rwa [List.append_nil] at happend

theorem cString_zeros (n : Nat) : cString (List.replicate n 0) = [] := by
  cases n <;> rfl

theorem not_mem_take {s : Bytes} (h : 0 ∉ s) (n : Nat) : 0 ∉ s.take n :=
  fun hmem => h (List.mem_of_mem_take hmem)

/-- The structure holds as much of the address as fits. -/
theorem pathOf_setup {this : SocketConnection} (h : 0 ∉ this.address) (behind : Bytes) :
    pathOf (setupStructures this behind).1 = this.address.take 108 := by
  show cString (this.address.take 108 ++ List.replicate _ 0) = _
  rw [cString_append (not_mem_take h 108), cString_zeros, List.append_nil]

/-- What does not fit is not looked at. -/
theorem setupStructures_congr {this that : SocketConnection}
    (h : this.address.take 108 = that.address.take 108) (behind : Bytes) :
    setupStructures this behind = setupStructures that behind := by
  simp only [setupStructures, SocketConnection.getAddress, h]

/-- **THE ADDRESS FITS** exactly when its NUL does. -/
theorem holds_setup_iff {this : SocketConnection} (h : 0 ∉ this.address) (behind : Bytes) :
    Holds (setupStructures this behind).1 (setupStructures this behind).2 this.address
      ↔ this.address.length ≤ 107 := by
  constructor
  · rintro ⟨hzero, -, -⟩
    by_contra hlong
    have htake : (this.address.take 108).length = 108 := List.length_take_of_le (by omega)
    have hpath : (setupStructures this behind).1.sun_path = this.address.take 108 := by
      show this.address.take 108 ++ List.replicate (108 - (this.address.take 108).length) 0 = _
      rw [htake, Nat.sub_self, List.replicate_zero, List.append_nil]
    rw [hpath] at hzero
    exact not_mem_take h 108 hzero
  · intro hfit
    have htake : this.address.take 108 = this.address := List.take_of_length_le (by omega)
    have hpath : (setupStructures this behind).1.sun_path
        = this.address ++ List.replicate (108 - this.address.length) 0 := by
      show this.address.take 108 ++ List.replicate (108 - (this.address.take 108).length) 0 = _
      rw [htake]
    have hlen : (cString ((setupStructures this behind).1.sun_path ++ behind)).length
        = this.address.length := by
      obtain ⟨n, hn⟩ : ∃ n, 108 - this.address.length = n + 1 :=
        ⟨107 - this.address.length, by omega⟩
      rw [hpath, hn, List.append_assoc, cString_append h, List.replicate_succ]
      exact congrArg List.length (List.append_nil this.address)
    refine ⟨?_, ?_, ?_⟩
    · rw [hpath]
      exact List.mem_append_right _ (List.mem_replicate.mpr ⟨by omega, rfl⟩)
    · rw [pathOf_setup h, htake]
    · show (sunLen (setupStructures this behind).1 behind).toNat = _
      rw [sunLen, hlen]
      exact UInt32.toNat_ofNat_of_lt' (by rw [UInt32.size]; omega)

/-! ## The calls of a request -/

/-- A refused request makes no call. -/
theorem callsOf_refused (answers : Answers) (r : Request) {this : SocketConnection}
    (h : Refuses this) : callsOf answers r this = [] := by
  obtain ⟨ex, hrefused⟩ := request_refused unixDomainSocketConnection answers r h []
  rw [callsOf, hrefused]
  rfl

/-- A dial makes one. -/
theorem callsOf_dial (answers : Answers) (addr : Bytes) {this : SocketConnection}
    (h : ¬ Refuses this) :
    callsOf answers (.dial addr) this
      = [.connect this.getHandle (setupStructures (established (.dial addr) this) answers.behind).1
          (setupStructures (established (.dial addr) this) answers.behind).2] := by
  rw [callsOf, request_performed _ _ _ h]
  show (after (performDial answers (established _ this, []))).2 = _
  simp only [performDial]
  split <;> rfl

/-- An announce makes them up to the first whose answer is negative. -/
theorem callsOf_announce (answers : Answers) (addr : Bytes) {this : SocketConnection}
    (h : ¬ Refuses this) :
    let st := setupStructures (established (.announce addr) this) answers.behind
    callsOf answers (.announce addr) this
      = [.ignoreSigpipe, .setsockopt this.getHandle]
        ++ if answers.setsockopt < 0 then [] else
          [.unlink (cString addr), .bind this.getHandle st.1 st.2]
            ++ if answers.bind < 0 then [] else
              [.chmod (cString addr), .listen this.getHandle maximumCacheSize] := by
  intro st
  rw [callsOf, request_performed _ _ _ h]
  show (after (performAnnounce answers (established _ this, []))).2 = _
  simp only [performAnnounce]
  split_ifs <;> rfl

/-- The request stops before the first call that is handed a path. -/
def StopsEarly (answers : Answers) : Request → Prop
  | .dial _     => False
  | .announce _ => answers.setsockopt < 0

/-- Every structure handed over has been set up from the address of its request. -/
theorem given_setup {answers : Answers} {r : Request} {this : SocketConnection} {call : SysCall}
    (hcall : call ∈ callsOf answers r this) {sa : SockaddrUn} (hsa : sa ∈ given call) :
    ¬ Refuses this ∧ ¬ StopsEarly answers r
      ∧ sa = (setupStructures (established r this) answers.behind).1 := by
  have href : ¬ Refuses this := by
    intro href
    rw [callsOf_refused answers r href] at hcall
    exact nomatch hcall
  refine ⟨href, ?_⟩
  cases r with
  | dial addr =>
      rw [callsOf_dial answers addr href, List.mem_singleton] at hcall
      rw [hcall] at hsa
      exact ⟨id, (Option.some.inj hsa).symm⟩
  | announce addr =>
      rw [callsOf_announce answers addr href] at hcall
      -- of the calls made, `bind` alone is handed a structure
      split_ifs at hcall with hsetsockopt hbind <;>
        simp only [List.mem_append, List.mem_cons, List.not_mem_nil, or_false] at hcall
      · rcases hcall with rfl | rfl <;> exact nomatch hsa
      · rcases hcall with (rfl | rfl) | rfl | rfl
        · exact nomatch hsa
        · exact nomatch hsa
        · exact nomatch hsa
        · exact ⟨hsetsockopt, (Option.some.inj hsa).symm⟩
      · rcases hcall with (rfl | rfl) | (rfl | rfl) | rfl | rfl
        · exact nomatch hsa
        · exact nomatch hsa
        · exact nomatch hsa
        · exact ⟨hsetsockopt, (Option.some.inj hsa).symm⟩
        · exact nomatch hsa
        · exact nomatch hsa

/-- Whether a request uses one path throughout, from the address and the answers. -/
theorem paths_iff {answers : Answers} {r : Request} {this : SocketConnection}
    (h : 0 ∉ r.address) :
    ((∃ ex s, unixDomainSocketConnection.request answers r (this, []) = .error ex s)
          ∧ (∀ call ∈ callsOf answers r this, ¬ NamesPath call)
        ∨ ∀ call ∈ callsOf answers r this, PathIs r.address call)
      ↔ Refuses this ∨ StopsEarly answers r ∨ r.address.length ≤ 107 := by
  by_cases href : Refuses this
  · refine iff_of_true (Or.inr ?_) (Or.inl href)
    rw [callsOf_refused answers r href]
    exact List.forall_mem_nil _
  · rw [or_iff_right href]
    have hfits : Holds (setupStructures (established r this) answers.behind).1
        (setupStructures (established r this) answers.behind).2 r.address
          ↔ r.address.length ≤ 107 :=
      @holds_setup_iff (established r this) h answers.behind
    cases r with
    | dial addr =>
        rw [callsOf_dial answers addr href, StopsEarly, false_or, ← hfits]
        simp [NamesPath, PathIs]
    | announce addr =>
        have hcopy : cString addr = addr := cString_eq h
        rw [callsOf_announce answers addr href, StopsEarly, ← hfits, hcopy]
        split_ifs with hsetsockopt hbind
        · simp [PathIs, hsetsockopt]
        · simp [NamesPath, PathIs, hsetsockopt, Request.address]
        · simp [NamesPath, PathIs, hsetsockopt, Request.address]

/-- No other address shares the path of one that fits. -/
theorem pathOf_ne {holder holder' : SocketConnection} (behind behind' : Bytes)
    (h : 0 ∉ holder.address) (h' : 0 ∉ holder'.address) (hfit : holder.address.length ≤ 107)
    (hne : holder'.address ≠ holder.address) :
    pathOf (setupStructures holder behind).1 ≠ pathOf (setupStructures holder' behind').1 := by
  rw [pathOf_setup h, pathOf_setup h', List.take_of_length_le (by omega)]
  intro heq
  have hlen := congrArg List.length heq
  rw [List.length_take] at hlen
  rw [List.take_of_length_le (by omega)] at heq
  exact hne heq.symm

/-- **ONE PATH PER SOCKET** exactly for the addresses of at most 107 bytes, and
    where the structure is not used: the object turns the request away, or the
    announce stops at `setsockopt`. -/
theorem one_path_iff {r : Request} (h : 0 ∉ r.address) (answers : Answers)
    (this : SocketConnection) :
    OnePath answers r this
      ↔ Refuses this ∨ StopsEarly answers r ∨ r.address.length ≤ 107 := by
  constructor
  · rintro ⟨hpaths, -⟩
    exact (paths_iff h).mp hpaths
  · intro hcond
    refine ⟨(paths_iff h).mpr hcond, ?_⟩
    intro answers' r' this' h' hne call hcall call' hcall' sa hsa sa' hsa'
    obtain ⟨href, hstops, rfl⟩ := given_setup hcall hsa
    obtain ⟨-, -, rfl⟩ := given_setup hcall' hsa'
    rcases hcond with href' | hstops' | hfit
    · exact absurd href' href
    · exact absurd hstops' hstops
    · exact pathOf_ne answers.behind answers'.behind h h' hfit hne

/-- The address of one byte. -/
theorem one_path_root : OnePath {} (.dial [47]) (.new 3) :=
  (one_path_iff (by decide) {} (.new 3)).mpr (Or.inr (Or.inr (by decide)))

/-- Two addresses of 109 bytes that differ in their last connect to one path,
    which is neither. -/
theorem one_path_shared :
    let long : Bytes := List.replicate 108 97
    let connected := fun last : UInt8 => callsOf {} (.dial (long ++ [last])) (.new 3)
    (∃ sa salen, pathOf sa = long ∧ connected 98 = [.connect 3 sa salen]
        ∧ connected 99 = [.connect 3 sa salen])
      ∧ ¬ OnePath {} (.dial (long ++ [98])) (.new 3) := by
  intro long connected
  have htake : ∀ last, (long ++ [last]).take 108 = long :=
    fun last => List.take_left' List.length_replicate
  have hvalid : ¬ Refuses (.new 3) := by
    rintro (hset | hinvalid)
    · exact hset rfl
    · cases hinvalid
  have hshared : ∃ sa salen, pathOf sa = long ∧ connected 98 = [.connect 3 sa salen]
      ∧ connected 99 = [.connect 3 sa salen] := by
    refine ⟨_, _, ?_, callsOf_dial {} _ hvalid, ?_⟩
    · rw [pathOf_setup (by decide)]
      exact htake 98
    · show callsOf {} (.dial (long ++ [99])) (.new 3) = _
      have hsame : setupStructures (established (.dial (long ++ [99])) (.new 3)) []
          = setupStructures (established (.dial (long ++ [98])) (.new 3)) [] :=
        setupStructures_congr ((htake 99).trans (htake 98).symm) []
      rw [callsOf_dial {} _ hvalid, hsame]
      rfl
  refine ⟨hshared, ?_⟩
  rintro ⟨-, hother⟩
  obtain ⟨sa, salen, -, h98, h99⟩ := hshared
  exact hother {} (.dial (long ++ [99])) (.new 3) (by decide) (by decide) _
    (by rw [show callsOf _ _ _ = _ from h98]; exact List.mem_singleton_self _) _
    (by rw [show callsOf _ _ _ = _ from h99]; exact List.mem_singleton_self _)
    sa rfl sa rfl rfl

end KzrUnixDomainSocketConnection
