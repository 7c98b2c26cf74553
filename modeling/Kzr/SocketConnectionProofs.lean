import Kzr.FileHandleConnectionProofs
import Kzr.RunProofs

/-! # Socket connections — mode, address, dial and announce

    A `SocketConnection` is told once what it is for: `dial` makes it connect
    to an address, `announce` makes it listen on one, and whichever comes first
    settles the mode.  Both set the mode and the address first and then call
    the virtual function of the subclass that does the work, which may throw.

    Mode and address are private to the class, so no subclass changes them. -/

namespace KzrSocketConnection

open KzrMessageStream KzrFileHandleConnection Runs

variable {ω τ : Type}

/-- What a socket has been used for. -/
inductive SocketMode where
  | Undefined | ConnectTo | Listen
deriving DecidableEq

/-- A connection that is opened by dialling or announcing an address. -/
structure SocketConnection extends FileHandleConnection where
  mode    : SocketMode := .Undefined
  address : Bytes := []
deriving DecidableEq

/-- A new socket owns the descriptor that `socket` has answered. -/
def SocketConnection.new (fd : Int) : SocketConnection := { handle := fd, destroy := true }

/-- `getAddress()`. -/
def SocketConnection.getAddress (this : SocketConnection) : Bytes := this.address

/-- A method works on the object and on the system around it. -/
abbrev Method (τ : Type) := EStateM Exception (SocketConnection × τ) Unit

/-- The common part of `dial` and `announce`. -/
def SocketConnection.establish (mode : SocketMode) (refusal : String) (perform : Method τ)
    (addr : Bytes) : Method τ := fun (this, system) =>
  if this.mode ≠ .Undefined then
    .error ⟨"SocketConnection's mode is already set"⟩ (this, system)
  else if !this.isValidHandle then
    .error ⟨refusal⟩ (this, system)
  -- the object has changed before anything can fail
  else perform ({ this with mode := mode, address := addr }, system)

/-- `dial(addr)`: the mode is set before the subclass is asked. -/
def SocketConnection.dial (performDial : Method τ) (addr : Bytes) : Method τ :=
  SocketConnection.establish .ConnectTo "Provided socket is not valid! Cannot dial!"
    performDial addr

/-- `announce(addr)`: the same with the other mode. -/
def SocketConnection.announce (performAnnounce : Method τ) (addr : Bytes) : Method τ :=
  SocketConnection.establish .Listen "Provided socket is not valid! Cannot announce!"
    performAnnounce addr

/-- The state a method leaves, by whichever way it ends. -/
def after {ε σ α : Type} : EStateM.Result ε σ α → σ
  | .ok _ s    => s
  | .error _ s => s

/-- The virtual functions of a subclass, given what the system answers to the
    calls they make. -/
structure Subclass (ω τ : Type) where
  performDial     : ω → Method τ
  performAnnounce : ω → Method τ
  dial_keeps      : ∀ answers s, (after (performDial answers s)).1 = s.1
  announce_keeps  : ∀ answers s, (after (performAnnounce answers s)).1 = s.1

/-! ## Runs of dials and announces -/

/-- What is asked of a socket connection. -/
inductive Request where
  | dial (addr : Bytes)
  | announce (addr : Bytes)
deriving DecidableEq

/-- The address that is asked for. -/
def Request.address : Request → Bytes
  | .dial addr     => addr
  | .announce addr => addr

/-- The mode that comes of it. -/
def Request.mode : Request → SocketMode
  | .dial _     => .ConnectTo
  | .announce _ => .Listen

/-- Every request sets the mode. -/
theorem Request.mode_ne_undefined (r : Request) : r.mode ≠ .Undefined := by
  cases r with
  | dial addr => exact nofun
  | announce addr => exact nofun

/-- The virtual function a request ends in. -/
def Subclass.perform (sub : Subclass ω τ) (answers : ω) : Request → Method τ
  | .dial _     => sub.performDial answers
  | .announce _ => sub.performAnnounce answers

/-- Each request goes to its method. -/
def Subclass.request (sub : Subclass ω τ) (answers : ω) : Request → Method τ
  | .dial addr     => SocketConnection.dial (sub.performDial answers) addr
  | .announce addr => SocketConnection.announce (sub.performAnnounce answers) addr

/-- An object, the system around it, and the requests that have returned
    normally. -/
structure Session (τ : Type) where
  this     : SocketConnection
  system   : τ
  returned : List Request

/-- One request with the answers it gets. -/
def step (sub : Subclass ω τ) (call : Request × ω) (s : Session τ) : Session τ :=
  match sub.request call.2 call.1 (s.this, s.system) with
  | .ok () (this, system)   => ⟨this, system, s.returned ++ [call.1]⟩
  | .error _ (this, system) => { s with this := this, system := system }

/-- A request that throws leaves the mode and the address as they were. -/
def ThrowKeeps (sub : Subclass ω τ) (call : Request × ω) (s : Session τ) : Prop :=
  ∀ ex s', sub.request call.2 call.1 (s.this, s.system) = .error ex s' →
    s'.1.mode = s.this.mode ∧ s'.1.address = s.this.address

/-- The mode is that of the requests that have returned normally, and the
    address is theirs. -/
def Faithful (s : Session τ) : Prop :=
  (s.this.mode = .ConnectTo ↔ ∃ addr, .dial addr ∈ s.returned)
    ∧ (s.this.mode = .Listen ↔ ∃ addr, .announce addr ∈ s.returned)
    ∧ ∀ r ∈ s.returned, s.this.getAddress = r.address

/-- The object turns every request away before it changes. -/
def Refuses (this : SocketConnection) : Prop :=
  this.mode ≠ .Undefined ∨ this.isValidHandle = false

/-- The object as a request leaves it to the virtual function. -/
def established (r : Request) (this : SocketConnection) : SocketConnection :=
  { this with mode := r.mode, address := r.address }

/-- The request is turned away, or the virtual function it ends in returns. -/
def Settled (sub : Subclass ω τ) (call : Request × ω) (s : Session τ) : Prop :=
  Refuses s.this
    ∨ ∃ s', sub.perform call.2 call.1 (established call.1 s.this, s.system) = .ok () s'

/-- A socket that refuses changes nothing. -/
theorem establish_refused {mode : SocketMode} {refusal : String} {perform : Method τ}
    {addr : Bytes} {this : SocketConnection} (h : Refuses this) (system : τ) :
    ∃ ex, SocketConnection.establish mode refusal perform addr (this, system)
      = .error ex (this, system) := by
  simp only [SocketConnection.establish]
  by_cases hmode : this.mode ≠ .Undefined
  · rw [if_pos hmode]
    exact ⟨_, rfl⟩
  · rcases h with hset | hinvalid
    · exact absurd hset hmode
    · rw [if_neg hmode, hinvalid]
      exact ⟨_, rfl⟩

/-- One that does not has its mode and address set, and the subclass is asked. -/
theorem establish_performed {mode : SocketMode} {refusal : String} {perform : Method τ}
    {addr : Bytes} {this : SocketConnection} (h : ¬ Refuses this) (system : τ) :
    SocketConnection.establish mode refusal perform addr (this, system)
      = perform ({ this with mode := mode, address := addr }, system) := by
  obtain ⟨hmode, hvalid⟩ := not_or.mp h
  have hvalid' : this.isValidHandle = true := by simpa using hvalid
  simp only [SocketConnection.establish]
  rw [if_neg hmode, hvalid']
  rfl

theorem request_refused (sub : Subclass ω τ) (answers : ω) (r : Request)
    {this : SocketConnection} (h : Refuses this) (system : τ) :
    ∃ ex, sub.request answers r (this, system) = .error ex (this, system) := by
  cases r with
  | dial addr => exact establish_refused h system
  | announce addr => exact establish_refused h system

theorem request_performed (sub : Subclass ω τ) (answers : ω) (r : Request)
    {this : SocketConnection} (h : ¬ Refuses this) (system : τ) :
    sub.request answers r (this, system)
      = sub.perform answers r (established r this, system) := by
  cases r with
  | dial addr => exact establish_performed h system
  | announce addr => exact establish_performed h system

theorem perform_keeps (sub : Subclass ω τ) (answers : ω) (r : Request) (s : SocketConnection × τ) :
    (after (sub.perform answers r s)).1 = s.1 := by
  cases r with
  | dial addr => exact sub.dial_keeps answers s
  | announce addr => exact sub.announce_keeps answers s

/-- A request that throws keeps the mode and the address exactly when it is
    turned away or does not throw at all. -/
theorem throwKeeps_iff (sub : Subclass ω τ) (call : Request × ω) (s : Session τ) :
    ThrowKeeps sub call s ↔ Settled sub call s := by
  by_cases href : Refuses s.this
  · refine iff_of_true ?_ (Or.inl href)
    intro ex s' hthrow
    obtain ⟨ex', hrefused⟩ := request_refused sub call.2 call.1 href s.system
    rw [hrefused] at hthrow
    cases hthrow
    exact ⟨rfl, rfl⟩
  · have hrun := request_performed sub call.2 call.1 href s.system
    have hkeeps := perform_keeps sub call.2 call.1 (established call.1 s.this, s.system)
    rw [ThrowKeeps, Settled, or_iff_right href, hrun]
    cases hresult : sub.perform call.2 call.1 (established call.1 s.this, s.system) with
    | ok u s' =>
        refine iff_of_true ?_ ⟨s', rfl⟩
        rintro ex s'' ⟨⟩
    | error ex s' =>
        refine iff_of_false ?_ ?_
        · intro h
          obtain ⟨hmode, -⟩ := h ex s' rfl
          rw [hresult] at hkeeps
          have hset : s'.1.mode = call.1.mode := congrArg SocketConnection.mode hkeeps
          have hundefined : s.this.mode = .Undefined := not_not.mp (not_or.mp href).1
          exact call.1.mode_ne_undefined (hset.symm.trans (hmode.trans hundefined))
        · rintro ⟨s'', ⟨⟩⟩

/-- What a settled request does: nothing, or it sets the mode and the address
    and returns. -/
theorem step_cases {sub : Subclass ω τ} {call : Request × ω} {s : Session τ}
    (h : Settled sub call s) :
    step sub call s = s
      ∨ s.this.mode = .Undefined ∧ (step sub call s).this = established call.1 s.this
        ∧ (step sub call s).returned = s.returned ++ [call.1] := by
  by_cases href : Refuses s.this
  · obtain ⟨ex, hrefused⟩ := request_refused sub call.2 call.1 href s.system
    refine Or.inl ?_
    rw [step, hrefused]
  · obtain ⟨s', hok⟩ := h.resolve_left href
    have hkeeps := perform_keeps sub call.2 call.1 (established call.1 s.this, s.system)
    have hrun := request_performed sub call.2 call.1 href s.system
    rw [hok] at hkeeps
    refine Or.inr ⟨not_not.mp (not_or.mp href).1, ?_⟩
    rw [step, hrun, hok]
    exact ⟨hkeeps, rfl⟩

theorem faithful_new (fd : Int) (system : τ) : Faithful (⟨.new fd, system, []⟩ : Session τ) := by
  simp [Faithful, SocketConnection.new]

/-- While the mode is undefined, nothing has returned. -/
theorem Faithful.returned_nil {s : Session τ} (h : Faithful s)
    (hmode : s.this.mode = .Undefined) : s.returned = [] := by
  obtain ⟨hdial, hannounce, -⟩ := h
  rw [hmode] at hdial hannounce
  refine List.eq_nil_iff_forall_not_mem.mpr ?_
  rintro (addr | addr) hmem
  · exact nomatch hdial.mpr ⟨addr, hmem⟩
  · exact nomatch hannounce.mpr ⟨addr, hmem⟩

/-- A settled request keeps mode and address those of what has returned. -/
theorem faithful_step {sub : Subclass ω τ} {call : Request × ω} {s : Session τ}
    (hs : Faithful s) (h : Settled sub call s) : Faithful (step sub call s) := by
  rcases step_cases h with hsame | ⟨hmode, hthis, hreturned⟩
  · rwa [hsame]
  · rw [hs.returned_nil hmode, List.nil_append] at hreturned
    simp only [Faithful, hthis, hreturned, SocketConnection.getAddress, List.mem_singleton]
    rcases call with ⟨addr | addr, answers⟩
    · simp [established, Request.mode, Request.address]
    · simp [established, Request.mode, Request.address]

/-- **FAILURES CHANGE NOTHING**, and the mode is that of what has succeeded,
    throughout a run exactly when no virtual function throws in it. -/
theorem faithful_iff (sub : Subclass ω τ) (fd : Int) (system : τ) (calls : List (Request × ω)) :
    (EveryStep (step sub) (ThrowKeeps sub) calls ⟨.new fd, system, []⟩
        ∧ EveryState (step sub) Faithful calls ⟨.new fd, system, []⟩)
      ↔ EveryStep (step sub) (Settled sub) calls ⟨.new fd, system, []⟩ := by
  rw [everyStep_congr (throwKeeps_iff sub)]
  constructor
  · exact And.left
  · intro hsettled
    exact ⟨hsettled, everyState_of_invariant (fun call s hs h => faithful_step hs h)
      (faithful_new fd system) hsettled⟩

end KzrSocketConnection
