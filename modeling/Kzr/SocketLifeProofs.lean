import Kzr.OwnershipProofs
import Kzr.UnixDomainSocketConnectionProofs

/-! # The life of a socket connection

    A socket connection does one thing in its life.  The first `dial` or `announce`
    of one whose descriptor is valid sets the mode, whether or not the system goes
    along with it, and every later one is turned away before it makes a call; with
    a descriptor that is not valid every one of them is.

    So the system calls of a whole life are those of the first request, up to and
    with the first that fails, and the one `::close` of the destructor. -/

namespace KzrSocketLife

open KzrMessageStream KzrFileHandleConnection KzrSocketConnection KzrUnixDomainSocketConnection
open KzrOwnership (destruct)
open Runs

variable {ω τ : Type}

/-! ## Requests that are turned away -/

/-- What a request says of a socket that has been used. -/
def alreadySet : Exception := ⟨"SocketConnection's mode is already set"⟩

/-- What a request says of a descriptor that is not valid. -/
def notValid : Request → Exception
  | .dial _     => ⟨"Provided socket is not valid! Cannot dial!"⟩
  | .announce _ => ⟨"Provided socket is not valid! Cannot announce!"⟩

/-- The request throws this and changes nothing. -/
def TurnedAway (sub : Subclass ω τ) (ex : Request → Exception) (call : Request × ω)
    (s : Session τ) : Prop :=
  sub.request call.2 call.1 (s.this, s.system) = .error (ex call.1) (s.this, s.system)

theorem turnedAway_of_set (sub : Subclass ω τ) (call : Request × ω) {s : Session τ}
    (h : s.this.mode ≠ .Undefined) : TurnedAway sub (fun _ => alreadySet) call s := by
  obtain ⟨r, answers⟩ := call
  cases r with
  | dial addr => exact if_pos h
  | announce addr => exact if_pos h

theorem turnedAway_of_invalid (sub : Subclass ω τ) (call : Request × ω) {s : Session τ}
    (hmode : s.this.mode = .Undefined) (hv : s.this.isValidHandle = false) :
    TurnedAway sub notValid call s := by
  obtain ⟨r, answers⟩ := call
  have hnot : (!s.this.isValidHandle) = true := by rw [hv]; rfl
  cases r with
  | dial addr => exact (if_neg (not_not.mpr hmode)).trans (if_pos hnot)
  | announce addr => exact (if_neg (not_not.mpr hmode)).trans (if_pos hnot)

theorem step_of_turnedAway {sub : Subclass ω τ} {ex : Request → Exception} {call : Request × ω}
    {s : Session τ} (h : TurnedAway sub ex call s) : step sub call s = s := by
  have hrun : sub.request call.2 call.1 (s.this, s.system)
      = .error (ex call.1) (s.this, s.system) := h
  rw [step, hrun]

/-- Where every request is turned away, a run of them changes nothing. -/
theorem run_of_turnedAway {sub : Subclass ω τ} {ex : Request → Exception} {s : Session τ}
    (h : ∀ call, TurnedAway sub ex call s) (calls : List (Request × ω)) :
    run (step sub) calls s = s ∧ EveryStep (step sub) (TurnedAway sub ex) calls s := by
  induction calls with
  | nil => exact ⟨rfl, trivial⟩
  | cons call calls ih =>
      obtain ⟨hrun, hevery⟩ := ih
      have hstep := step_of_turnedAway (h call)
      refine ⟨?_, h call, ?_⟩
      · rw [run, hstep, hrun]
      · rw [hstep]
        exact hevery

/-! ## The request that is performed -/

/-- The system calls of a request, each with whether it stops the request.  Nothing
    is asked of the answers to `signal`, `unlink` and `chmod`. -/
def intendedCalls (answers : Answers) (r : Request) (this : SocketConnection) :
    List (SysCall × Bool) :=
  let st := setupStructures (established r this) answers.behind
  match r with
  | .dial _        => [(.connect this.getHandle st.1 st.2, answers.connect ≠ 0)]
  | .announce addr =>
      [(.ignoreSigpipe, false), (.setsockopt this.getHandle, answers.setsockopt < 0),
        (.unlink (cString addr), false), (.bind this.getHandle st.1 st.2, answers.bind < 0),
        (.chmod (cString addr), false),
        (.listen this.getHandle maximumCacheSize, answers.listen < 0)]

/-- Up to the first that fails, which has been made too. -/
def untilFailure : List (SysCall × Bool) → List SysCall
  | []                     => []
  | (call, true) :: _      => [call]
  | (call, false) :: calls => call :: untilFailure calls

/-- **A REQUEST STOPS AT THE FIRST CALL THAT FAILS**. -/
theorem callsOf_eq (answers : Answers) (r : Request) {this : SocketConnection}
    (h : ¬ Refuses this) :
    callsOf answers r this = untilFailure (intendedCalls answers r this) := by
  cases r with
  | dial addr =>
      rw [callsOf_dial answers addr h, intendedCalls]
      by_cases hconnect : answers.connect = 0 <;> simp [hconnect, untilFailure]
  | announce addr =>
      rw [callsOf_announce answers addr h, intendedCalls]
      by_cases hsetsockopt : answers.setsockopt < 0
      · simp [hsetsockopt, untilFailure]
      · by_cases hbind : answers.bind < 0
        · simp [hsetsockopt, hbind, untilFailure]
        · by_cases hlisten : answers.listen < 0 <;>
            simp [hsetsockopt, hbind, hlisten, untilFailure]

/-- And it is granted when none does. -/
theorem granted_iff (answers : Answers) (r : Request) (this : SocketConnection) :
    Granted r answers ↔ (intendedCalls answers r this).any Prod.snd = false := by
  cases r with
  | dial addr => simp [Granted, intendedCalls]
  | announce addr => simp [Granted, intendedCalls]

/-- The first request of a socket that does not refuse it. -/
theorem step_performed (call : Request × Answers) {this : SocketConnection} (h : ¬ Refuses this) :
    step unixDomainSocketConnection call ⟨this, [], []⟩
      = { this := established call.1 this
          system := untilFailure (intendedCalls call.2 call.1 this)
          returned :=
            if (intendedCalls call.2 call.1 this).any Prod.snd then [] else [call.1] } := by
  have hperform := request_performed unixDomainSocketConnection call.2 call.1 h []
  have hkeeps := perform_keeps unixDomainSocketConnection call.2 call.1
    (established call.1 this, [])
  have hok := perform_ok_iff call.1 call.2 (established call.1 this, [])
  have hgranted := granted_iff call.2 call.1 this
  rw [← callsOf_eq call.2 call.1 h, callsOf, step]
  simp only [hperform]
  cases hresult : unixDomainSocketConnection.perform call.2 call.1 (established call.1 this, [])
    with
  | ok u s' =>
      rw [hresult] at hkeeps hok
      have hnone := hgranted.mp (hok.mp ⟨s', rfl⟩)
      have hthis : s'.1 = established call.1 this := hkeeps
      rw [hnone, if_neg Bool.false_ne_true, ← hthis]
      rfl
  | error ex s' =>
      rw [hresult] at hkeeps hok
      have hsome : (intendedCalls call.2 call.1 this).any Prod.snd = true := by
        by_contra hnone
        obtain ⟨s'', hs''⟩ := hok.mpr (hgranted.mpr (by simpa using hnone))
        cases hs''
      have hthis : s'.1 = established call.1 this := hkeeps
      rw [if_pos hsome, ← hthis]
      rfl

/-! ## Whole lives -/

/-- The destructor closes what the constructor was given, if it was given any. -/
theorem destruct_of_handle {this : SocketConnection} {fd : Int} (hhandle : this.handle = fd)
    (hdestroy : this.destroy = true) :
    destruct this.toFileHandleConnection = if 0 ≤ fd then [fd] else [] := by
  simp only [destruct, FileHandleConnection.isValidHandle, hhandle, hdestroy, Bool.and_true,
    decide_eq_true_eq]

/-- **ONE REQUEST IN A LIFE**: of any dials and announces, whatever the system
    answers, only the first is performed, and none on a descriptor that is not
    valid; the calls made are those of this request, up to and with the first that
    fails, it returns when none does, and at the end there is one `::close`. -/
theorem one_request_performed (fd : Int) (first : Request × Answers)
    (calls : List (Request × Answers)) :
    let sub := unixDomainSocketConnection
    let start : Session (List SysCall) := ⟨.new fd, [], []⟩
    let s := run (step sub) (first :: calls) start
    (fd < 0 → s = start ∧ EveryStep (step sub) (TurnedAway sub notValid) (first :: calls) start)
      ∧ (0 ≤ fd →
        s = { this := established first.1 (.new fd)
              system := untilFailure (intendedCalls first.2 first.1 (.new fd))
              returned := if (intendedCalls first.2 first.1 (.new fd)).any Prod.snd then []
                else [first.1] }
          ∧ EveryStep (step sub) (TurnedAway sub fun _ => alreadySet) calls
            (step sub first start))
      ∧ destruct s.this.toFileHandleConnection = if 0 ≤ fd then [fd] else [] := by
  intro sub start s
  by_cases hfd : 0 ≤ fd
  · have hvalid : ¬ Refuses start.this := by
      rintro (hset | hinvalid)
      · exact hset rfl
      · exact of_decide_eq_false hinvalid hfd
    have hfirst := step_performed first hvalid
    have hset : (step sub first start).this.mode ≠ .Undefined := by
      rw [show step sub first start = _ from hfirst]
      exact first.1.mode_ne_undefined
    obtain ⟨hrest, hevery⟩ :=
      run_of_turnedAway (fun call => turnedAway_of_set sub call hset) calls
    have hs : s = _ := hrest.trans hfirst
    refine ⟨fun hneg => absurd hneg (by omega), fun _ => ?_, ?_⟩
    · rw [hs]
      exact ⟨rfl, hevery⟩
    · rw [hs]
      exact destruct_of_handle rfl rfl
  · have hinvalid : start.this.isValidHandle = false := decide_eq_false hfd
    obtain ⟨hs, hevery⟩ :=
      run_of_turnedAway (fun call => turnedAway_of_invalid sub call rfl hinvalid) (first :: calls)
    refine ⟨fun _ => ⟨hs, hevery⟩, fun hpos => absurd hpos hfd, ?_⟩
    rw [show s = start from hs]
    exact destruct_of_handle rfl rfl

end KzrSocketLife
