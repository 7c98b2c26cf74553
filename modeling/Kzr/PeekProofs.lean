import Kzr.InteractionCodecProofs
import Kzr.QueueProofs
import Kzr.RunProofs

/-! # Looking ahead

    All dispatch on an operation goes through `peek`.  It should say what comes
    next and change nothing.

    What it says is decided by comparing the character, or `-1` at the end, with
    the `bool` that `eof()` returns: a zero byte is taken for the end, and the
    end for the byte 255.  What it changes is a flag: at the end it raises
    `eofbit`, and every later output is dropped.

    A stream that starts as a new one and is never asked for more than is unread
    is either writable, or spent: a flag is up, nothing is unread, and nothing
    will be.  A peek takes the one to the other when nothing is unread, and this
    goes unnoticed as long as nothing is to be put before the program peeks
    there itself. -/

namespace KzrPeek

open KzrMessageStream
open KzrQueue (Op Outcome wanted Fits writeAll integerBytes stringBytes)
open KzrInteractionCodec (peek_cons peek_exhausted unread_peek)
open Runs (run EveryStep everyState_of_invariant)

variable {order : ArgOrder}

/-! ## Calls -/

/-- A call of the class: an operation of a queue, or a peek. -/
inductive Call where
  | op (op : Op)
  | peek

/-- What a call hands back. -/
inductive Result where
  | of (outcome : Outcome)
  | peeked (byte : Option UInt8)
deriving DecidableEq

/-- What a call answers and what it leaves. -/
def call (order : ArgOrder) : Call → MessageStream → Result × MessageStream
  | .op op, msg =>
      match KzrQueue.step order op msg with
      | (outcome, msg') => (.of outcome, msg')
  | .peek, msg  =>
      match KzrMessageStream.peek msg with
      | (byte, msg')    => (.peeked byte, msg')

/-- The stream a call leaves. -/
def after (order : ArgOrder) (c : Call) (msg : MessageStream) : MessageStream :=
  (call order c msg).2

/-- The call does not replace the contents. -/
def KeepsContents : Call → Prop
  | .op (.setStr _) => False
  | .op .reset      => False
  | _               => True

/-- Encodes, writes, peeks, and decodes of no more than is unread. -/
def Admitted : Call → MessageStream → Prop
  | .op op, msg => KeepsContents (.op op) ∧ wanted op msg.unread ≤ msg.unread.length
  | .peek, _    => True

/-- What a call puts when the stream takes it. -/
def puts : Call → Bytes
  | .op (.encode v)       => integerBytes v
  -- a longer string is refused before its length is put
  | .op (.encodeString s) => if s.length < 65536 then stringBytes s else []
  | .op (.write s)        => s
  | _                     => []

/-! ## Runs with peeks inserted -/

/-- A call of the program's own, or a peek inserted between them. -/
inductive Item where
  | own (c : Call)
  | inserted

/-- The program without the insertions. -/
def ownCalls : List Item → List Call
  | []                => []
  | .own c :: items   => c :: ownCalls items
  | .inserted :: items => ownCalls items

/-- What a program sees: the results of its calls, and the contents at the end. -/
def perform (order : ArgOrder) : List Call → MessageStream → List Result × Bytes
  | [], msg         => ([], msg.str)
  | c :: calls, msg =>
      let seen := perform order calls (after order c msg)
      ((call order c msg).1 :: seen.1, seen.2)

/-- What it sees when the insertions are made. -/
def observe (order : ArgOrder) : List Item → MessageStream → List Result × Bytes
  | [], msg                => ([], msg.str)
  | .own c :: items, msg   =>
      let seen := observe order items (after order c msg)
      ((call order c msg).1 :: seen.1, seen.2)
  | .inserted :: items, msg => observe order items (after order .peek msg)

/-- The insertions change neither the result of another call nor the contents. -/
def Unnoticed (order : ArgOrder) (items : List Item) (msg : MessageStream) : Prop :=
  observe order items msg = perform order (ownCalls items) msg

/-- The next call that puts something or peeks is one that puts something. -/
def PutsNext : List Call → Prop
  | []              => False
  | .peek :: _      => False
  | .op op :: calls => puts (.op op) ≠ [] ∨ PutsNext calls

/-- No inserted peek finds the flags down and nothing unread when something is to
    be put next. -/
def Harmless (order : ArgOrder) : List Item → MessageStream → Prop
  | [], _                  => True
  | .own c :: items, msg   => Harmless order items (after order c msg)
  | .inserted :: items, msg =>
      (msg.good = true → msg.unread = [] → ¬ PutsNext (ownCalls items))
        ∧ Harmless order items msg

/-! ## Writable and spent streams -/

/-- A flag is up, but not `badbit`, and nothing is unread. -/
structure Spent (msg : MessageStream) : Prop where
  flagged  : msg.good = false
  unbroken : msg.storage.bad = false
  empty    : msg.unread = []

/-- Output appends, or nothing is put or taken any more. -/
def Sane (msg : MessageStream) : Prop := msg.Writable ∨ Spent msg

theorem unbroken_of_good {msg : MessageStream} (h : msg.good = true) :
    msg.storage.bad = false := by
  have hg : msg.storage.good = true := h
  simp only [CharStream.StringStream.good, Bool.and_eq_true, Bool.not_eq_true'] at hg
  exact hg.2

theorem Sane.unbroken {msg : MessageStream} (h : Sane msg) : msg.storage.bad = false := by
  rcases h with hw | hs
  · exact unbroken_of_good hw.good
  · exact hs.unbroken

/-- Raising `failbit`, once more or for the first time. -/
def failing (msg : MessageStream) : MessageStream :=
  { msg with storage := { msg.storage with failbit := true } }

/-- Only the flags, the unread bytes and the contents matter, and raising
    `failbit` keeps them. -/
theorem Spent.of_failing {msg msg' : MessageStream} (h : Spent msg)
    (hstorage : msg'.storage = (failing msg).storage) : Spent msg' ∧ msg'.str = msg.str := by
  have hgood : (failing msg).storage.good = false := by
    simp [failing, CharStream.StringStream.good]
  refine ⟨⟨?_, ?_, ?_⟩, ?_⟩
  · show msg'.storage.good = false
    rw [hstorage, hgood]
  · rw [hstorage]
    exact h.unbroken
  · show msg'.storage.unread = []
    rw [hstorage]
    exact h.empty
  · show msg'.storage.str = _
    rw [hstorage]
    rfl

/-- A spent stream drops what is put. -/
theorem spent_writeAll {msg : MessageStream} (h : Spent msg) (bs : Bytes) :
    Spent (writeAll msg bs) ∧ (writeAll msg bs).str = msg.str := by
  refine h.of_failing ?_
  rw [writeAll, CharStream.write_of_not_good h.flagged]
  rfl

theorem call_peek (order : ArgOrder) (msg : MessageStream) :
    (call order .peek msg).1 = .peeked (KzrMessageStream.peek msg).1 := rfl

/-- A peek at the end leaves a spent stream with the contents it had. -/
theorem spent_peek (order : ArgOrder) {msg : MessageStream} (h : Sane msg) (hu : msg.unread = []) :
    Spent (after order .peek msg) ∧ (after order .peek msg).str = msg.str := by
  obtain ⟨hunread, hstr, hbad⟩ := CharStream.peek_keeps msg.storage
  exact ⟨⟨(peek_exhausted (Or.inr hu)).2, hbad.trans h.unbroken, hunread.trans hu⟩, hstr⟩

/-- A peek at a byte leaves the stream alone. -/
theorem after_peek {msg : MessageStream} (h : Sane msg) (hu : msg.unread ≠ []) :
    after order .peek msg = msg := by
  obtain ⟨b, rest, hcons⟩ := List.exists_cons_of_ne_nil hu
  rcases h with hw | hs
  · exact congrArg Prod.snd (peek_cons hw.good hcons)
  · exact absurd hs.empty hu

/-! ## Spent streams stay so -/

/-- With a flag up, `read` raises another. -/
theorem storageRead_of_flagged {msg : MessageStream} (h : msg.good = false) (n : Nat) :
    (storageRead n msg).2.storage = (failing msg).storage := by
  show (msg.storage.read n).2 = _
  rw [CharStream.read_of_not_good h]
  rfl

theorem storageGet_of_flagged {msg : MessageStream} (h : msg.good = false) :
    (storageGet msg).2.storage = (failing msg).storage := by
  have hget := CharStream.get_of_not_good h
  simp only [storageGet, hget]
  rfl

/-- A spent stream refuses the second of two reads as it did the first. -/
theorem read_read_of_spent {msg msg' : MessageStream} (h : Spent msg)
    (h' : msg'.storage = (failing msg).storage) (n : Nat) :
    (storageRead n msg').2.storage = (failing msg).storage := by
  rw [storageRead_of_flagged (h.of_failing h').1.flagged, failing, h']
  rfl

/-- A spent stream gives an integer nothing. -/
theorem decodeValue_of_spent {msg : MessageStream} (h : Spent msg) (w : KzrIntegerCodec.Width) :
    (KzrIntegerCodec.decodeValue order w msg).2.storage = (failing msg).storage := by
  cases w with
  | u8 => exact storageGet_of_flagged h.flagged
  | u16 => exact storageRead_of_flagged h.flagged 2
  | u32 => exact storageRead_of_flagged h.flagged 4
  | u64 =>
      cases order with
      | leftFirst => exact read_read_of_spent h (storageRead_of_flagged h.flagged 4) 4
      | rightFirst => exact read_read_of_spent h (storageRead_of_flagged h.flagged 4) 4

theorem decodeString_of_spent {msg : MessageStream} (h : Spent msg) (data : Bytes) :
    (decodeString data msg).2.storage = (failing msg).storage :=
  read_read_of_spent h (storageRead_of_flagged h.flagged 2) (decodeUInt16 msg).1.toNat

/-! ## Output and input -/

/-- What a decoder takes is not taken from the contents. -/
theorem str_intake {α : Type} {d : Get α} {want : Bytes → Nat} (hd : KzrQueue.Intake d want)
    {msg : MessageStream} (h : msg.Writable) (hk : want msg.unread ≤ msg.unread.length) :
    (d msg).2.str = msg.str := by
  obtain ⟨a, ha⟩ := hd.result msg.unread hk
  rw [ha _ _ msg rfl h.good (List.take_append_drop _ _).symm]
  rfl

/-- Output has one outcome on all streams but broken ones, and puts the same bytes
    on all of them. -/
def IsOutput (order : ArgOrder) (op : Op) : Prop :=
  ∃ outcome, ∀ msg : MessageStream,
    (msg.storage.bad = false → (call order (.op op) msg).1 = .of outcome)
      ∧ (after order (.op op) msg = writeAll msg (puts (.op op))
        ∨ puts (.op op) = [] ∧ after order (.op op) msg = msg)

/-- Input asks for something and puts nothing, and a spent stream refuses it. -/
structure IsInput (order : ArgOrder) (op : Op) : Prop where
  asks     : ∀ q, 0 < wanted op q
  contents : ∀ msg : MessageStream, msg.Writable → wanted op msg.unread ≤ msg.unread.length →
    (after order (.op op) msg).str = msg.str
  refused  : ∀ msg, Spent msg → (after order (.op op) msg).storage = (failing msg).storage

/-- **WHAT AN OPERATION IS**, unless it replaces the contents. -/
theorem output_or_input {op : Op} (h : KeepsContents (.op op)) :
    IsOutput order op ∨ IsInput order op := by
  cases op with
  | encode v =>
      refine Or.inl ⟨.done, fun msg => ?_⟩
      simp only [after, call, KzrQueue.step, KzrQueue.output, KzrQueue.emits_value v msg]
      exact ⟨fun _ => trivial, Or.inl rfl⟩
  | encodeString s =>
      rcases KzrQueue.output_string s with ⟨hlen, hrun⟩ | ⟨hlen, ex, hrun⟩
      · refine Or.inl ⟨.done, fun msg => ?_⟩
        simp only [after, call, KzrQueue.step, hrun, puts, if_pos hlen]
        exact ⟨fun _ => trivial, Or.inl trivial⟩
      · refine Or.inl ⟨.threw ex, fun msg => ?_⟩
        simp only [after, call, KzrQueue.step, hrun, puts, if_neg (Nat.not_lt.mpr hlen)]
        exact ⟨fun _ => trivial, Or.inr ⟨trivial, trivial⟩⟩
  | write s =>
      refine Or.inl ⟨.done, fun msg => ?_⟩
      simp only [after, call, KzrQueue.step, KzrQueue.output_write]
      refine ⟨fun hbad => ?_, Or.inl rfl⟩
      rw [hbad]
      rfl
  | decode w =>
      have hd := KzrQueue.intake_value order w
      exact Or.inr ⟨hd.asks, fun _ hw hk => str_intake hd hw hk,
        fun _ hspent => decodeValue_of_spent hspent w⟩
  | decodeString data =>
      have hd := KzrQueue.intake_string data
      exact Or.inr ⟨hd.asks, fun _ hw hk => str_intake hd hw hk,
        fun _ hspent => decodeString_of_spent hspent data⟩
  | setStr s => exact h.elim
  | reset => exact h.elim

/-- **NOTHING BRINGS A SPENT STREAM BACK**, and nothing changes its contents. -/
theorem spent_call (order : ArgOrder) {c : Call} {msg : MessageStream} (h : Spent msg)
    (hk : KeepsContents c) :
    Spent (after order c msg) ∧ (after order c msg).str = msg.str := by
  cases c with
  | peek => exact spent_peek order (Or.inr h) h.empty
  | op op =>
      rcases output_or_input hk with ⟨outcome, hout⟩ | hin
      · rcases (hout msg).2 with hput | ⟨-, hsame⟩
        · rw [hput]
          exact spent_writeAll h _
        · rw [hsame]
          exact ⟨h, rfl⟩
      · exact h.of_failing (hin.refused msg h)

theorem Admitted.keeps {c : Call} {msg : MessageStream} (h : Admitted c msg) :
    KeepsContents c := by
  cases c with
  | peek => trivial
  | op op => exact h.1

theorem fits_of_admitted {op : Op} {msg : MessageStream} (h : Admitted (.op op) msg) :
    Fits op msg := by
  obtain ⟨hkeeps, hwanted⟩ := h
  cases op with
  | decode w => exact hwanted
  | decodeString data => exact hwanted
  | setStr s => exact hkeeps.elim
  | _ => trivial

/-- With nothing unread only output is admitted. -/
theorem isOutput_of_admitted (order : ArgOrder) {op : Op} {msg : MessageStream}
    (h : Admitted (.op op) msg) (hu : msg.unread = []) : IsOutput order op := by
  obtain ⟨hkeeps, hwanted⟩ := h
  refine (output_or_input hkeeps).resolve_right fun hin => ?_
  rw [hu] at hwanted
  exact Nat.not_le.mpr (hin.asks []) hwanted

/-- **TWO KINDS OF STREAM**: what is admitted leaves a stream writable or spent. -/
theorem sane_call {c : Call} {msg : MessageStream} (hs : Sane msg) (h : Admitted c msg) :
    Sane (after order c msg) := by
  rcases hs with hw | hspent
  · cases c with
    | peek =>
        by_cases hu : msg.unread = []
        · exact Or.inr (spent_peek order (Or.inl hw) hu).1
        · rw [after_peek (Or.inl hw) hu]
          exact Or.inl hw
    | op op => exact Or.inl (KzrQueue.writable_step order hw (fits_of_admitted h))
  · exact Or.inr (spent_call order hspent h.keeps).1

theorem length_str_writeAll {msg : MessageStream} (h : msg.Writable) (bs : Bytes) :
    (writeAll msg bs).str.length = msg.str.length + bs.length := by
  rw [KzrQueue.writeAll_of_writable h, str_append, List.length_append]

/-- The contents never get shorter. -/
theorem length_str_call {c : Call} {msg : MessageStream} (hs : Sane msg) (h : Admitted c msg) :
    msg.str.length ≤ (after order c msg).str.length := by
  rcases hs with hw | hspent
  · cases c with
    | peek =>
        by_cases hu : msg.unread = []
        · rw [(spent_peek order (Or.inl hw) hu).2]
        · rw [after_peek (Or.inl hw) hu]
    | op op =>
        rcases output_or_input h.1 with ⟨outcome, hout⟩ | hin
        · rcases (hout msg).2 with hput | ⟨-, hsame⟩
          · rw [hput, length_str_writeAll hw]
            omega
          · rw [hsame]
        · rw [hin.contents msg hw h.2]
  · rw [(spent_call order hspent h.keeps).2]

/-! ## Where an insertion goes unnoticed -/

/-- The stream is spent, or exhausted and will be peeked at before anything is put. -/
def Idle (calls : List Call) (msg : MessageStream) : Prop :=
  Spent msg ∨ msg.Writable ∧ msg.unread = [] ∧ ¬ PutsNext calls

theorem Idle.sane {calls : List Call} {msg : MessageStream} (h : Idle calls msg) : Sane msg :=
  h.elim Or.inr fun hlive => Or.inl hlive.1

theorem Idle.empty {calls : List Call} {msg : MessageStream} (h : Idle calls msg) :
    msg.unread = [] := by
  rcases h with hspent | ⟨-, hu, -⟩
  · exact hspent.empty
  · exact hu

/-- Output of no bytes leaves a good stream as it is. -/
theorem after_of_puts_nil {op : Op} (hout : IsOutput order op) (hputs : puts (.op op) = [])
    {msg : MessageStream} (hg : msg.good = true) : after order (.op op) msg = msg := by
  obtain ⟨outcome, hout⟩ := hout
  rcases (hout msg).2 with hput | ⟨-, hsame⟩
  · rw [hput, hputs, writeAll, CharStream.write_nil hg]
  · exact hsame

/-- An idle stream stays so, and keeps its contents. -/
theorem idle_after {c : Call} {calls : List Call} {msg : MessageStream}
    (h : Idle (c :: calls) msg) (ha : Admitted c msg) :
    Idle calls (after order c msg) ∧ (after order c msg).str = msg.str := by
  rcases h with hspent | ⟨hw, hu, hnext⟩
  · exact ⟨Or.inl (spent_call order hspent ha.keeps).1, (spent_call order hspent ha.keeps).2⟩
  · cases c with
    | peek =>
        obtain ⟨hs, hkept⟩ := spent_peek order (Or.inl hw) hu
        exact ⟨Or.inl hs, hkept⟩
    | op op =>
        obtain ⟨hputs, hlater⟩ := not_or.mp hnext
        have hsame : after order (.op op) msg = msg :=
          after_of_puts_nil (isOutput_of_admitted order ha hu) (not_not.mp hputs) hw.good
        rw [hsame]
        exact ⟨Or.inr ⟨hw, hu, hlater⟩, rfl⟩

/-- A call cannot tell an idle stream from a spent one. -/
theorem result_of_idle {c : Call} {calls : List Call} {msg msg' : MessageStream}
    (h : Idle (c :: calls) msg) (ha : Admitted c msg) (hs : Spent msg') :
    (call order c msg').1 = (call order c msg).1 := by
  cases c with
  | peek =>
      rw [call_peek, call_peek, (peek_exhausted (Or.inr hs.empty)).1,
        (peek_exhausted (Or.inr h.empty)).1]
  | op op =>
      obtain ⟨outcome, hout⟩ := isOutput_of_admitted order ha h.empty
      rw [(hout msg').1 hs.unbroken, (hout msg).1 h.sane.unbroken]

/-- **TWO RUNS**: from an idle stream, and with insertions from a spent one with
    the same contents, a program sees the same. -/
theorem observe_of_idle {items : List Item} {msg msg' : MessageStream}
    (h : Idle (ownCalls items) msg)
    (hcalls : EveryStep (after order) Admitted (ownCalls items) msg) (hs : Spent msg')
    (hstr : msg'.str = msg.str) :
    observe order items msg' = perform order (ownCalls items) msg := by
  induction items generalizing msg msg' with
  | nil => exact congrArg (Prod.mk []) hstr
  | cons item items ih =>
      cases item with
      | own c =>
          obtain ⟨ha, hcalls⟩ := hcalls
          obtain ⟨hidle, hkept⟩ := idle_after h ha
          obtain ⟨hs', hkept'⟩ := spent_call order hs ha.keeps
          have hrest := ih hidle hcalls hs' (hkept'.trans (hstr.trans hkept.symm))
          simp only [observe, ownCalls, perform, result_of_idle h ha hs, hrest]
      | inserted =>
          -- only the run with insertions takes a step
          obtain ⟨hs', hkept'⟩ := spent_peek order (Or.inr hs) hs.empty
          exact ih h hcalls hs' (hkept'.trans hstr)

/-- Peeks at an idle stream change no answer and no contents. -/
theorem harmless_of_idle {items : List Item} {msg : MessageStream}
    (h : Idle (ownCalls items) msg)
    (hcalls : EveryStep (after order) Admitted (ownCalls items) msg) :
    Harmless order items msg := by
  induction items generalizing msg with
  | nil => trivial
  | cons item items ih =>
      cases item with
      | own c =>
          obtain ⟨ha, hcalls⟩ := hcalls
          exact ih (idle_after h ha).1 hcalls
      | inserted =>
          refine ⟨?_, ih h hcalls⟩
          intro hg _
          rcases h with hspent | ⟨-, -, hnext⟩
          · rw [hspent.flagged] at hg
            exact nomatch hg
          · exact hnext

/-! ## Where it is noticed -/

/-- Nothing is put on a spent stream, however long the run. -/
theorem contents_of_spent {items : List Item} {msg : MessageStream} (hs : Spent msg)
    (hkeeps : ∀ c ∈ ownCalls items, KeepsContents c) :
    (observe order items msg).2 = msg.str := by
  induction items generalizing msg with
  | nil => rfl
  | cons item items ih =>
      cases item with
      | own c =>
          obtain ⟨hc, hrest⟩ := List.forall_mem_cons.mp hkeeps
          obtain ⟨hs', hkept⟩ := spent_call order hs hc
          exact (ih hs' hrest).trans hkept
      | inserted =>
          obtain ⟨hs', hkept⟩ := spent_peek order (Or.inr hs) hs.empty
          exact (ih hs' hkeeps).trans hkept

/-- Admitted calls never shorten the contents. -/
theorem length_perform {calls : List Call} {msg : MessageStream} (hs : Sane msg)
    (hcalls : EveryStep (after order) Admitted calls msg) :
    msg.str.length ≤ (perform order calls msg).2.length := by
  induction calls generalizing msg with
  | nil => exact Nat.le_refl _
  | cons c calls ih =>
      obtain ⟨ha, hcalls⟩ := hcalls
      exact Nat.le_trans (length_str_call hs ha) (ih (sane_call hs ha) hcalls)

/-- What is put next on an exhausted stream is there at the end. -/
theorem length_perform_of_putsNext {calls : List Call} {msg : MessageStream}
    (hw : msg.Writable) (hu : msg.unread = []) (hnext : PutsNext calls)
    (hcalls : EveryStep (after order) Admitted calls msg) :
    msg.str.length < (perform order calls msg).2.length := by
  induction calls generalizing msg with
  | nil => exact hnext.elim
  | cons c calls ih =>
      obtain ⟨ha, hcalls⟩ := hcalls
      cases c with
      | peek => exact hnext.elim
      | op op =>
          have hout := isOutput_of_admitted order ha hu
          by_cases hputs : puts (.op op) = []
          · have hsame : after order (.op op) msg = msg := after_of_puts_nil hout hputs hw.good
            rw [hsame] at hcalls
            have hlater := ih hw hu (hnext.resolve_left (not_not_intro hputs)) hcalls
            rwa [perform, hsame]
          · obtain ⟨outcome, hout⟩ := hout
            have hput := (hout msg).2.resolve_right fun h => hputs h.1
            have hlen := length_perform (sane_call (Or.inl hw) ha) hcalls
            have hpos := List.length_pos_iff.mpr hputs
            rw [hput, length_str_writeAll hw] at hlen
            show _ < (perform order calls (after order (.op op) msg)).2.length
            rw [hput]
            omega

theorem keeps_of_admitted {calls : List Call} {msg : MessageStream}
    (hcalls : EveryStep (after order) Admitted calls msg) : ∀ c ∈ calls, KeepsContents c := by
  induction calls generalizing msg with
  | nil => exact List.forall_mem_nil _
  | cons c calls ih =>
      obtain ⟨ha, hcalls⟩ := hcalls
      exact List.forall_mem_cons.mpr ⟨ha.keeps, ih hcalls⟩

/-- **WHEN INSERTIONS GO UNNOTICED**. -/
theorem unnoticed_iff {items : List Item} {msg : MessageStream} (hs : Sane msg)
    (hcalls : EveryStep (after order) Admitted (ownCalls items) msg) :
    Unnoticed order items msg ↔ Harmless order items msg := by
  induction items generalizing msg with
  | nil => exact iff_of_true rfl trivial
  | cons item items ih =>
      cases item with
      | own c =>
          obtain ⟨ha, hcalls⟩ := hcalls
          refine Iff.trans ?_ (ih (sane_call hs ha) hcalls)
          simp [Unnoticed, observe, ownCalls, perform, Prod.ext_iff]
      | inserted =>
          by_cases hu : msg.unread = []
          · by_cases hidle : Idle (ownCalls items) msg
            · obtain ⟨hs', hkept⟩ := spent_peek order hs hu
              have hsame : observe order items (after order .peek msg)
                  = perform order (ownCalls items) msg := observe_of_idle hidle hcalls hs' hkept
              exact iff_of_true hsame (@harmless_of_idle order (.inserted :: items) _ hidle hcalls)
            · -- the peek spends a stream on which something was to be put
              obtain ⟨hflagged, hputs⟩ := not_or.mp hidle
              have hw := hs.resolve_right hflagged
              have hnext : PutsNext (ownCalls items) := by
                by_contra hnone
                exact hputs ⟨hw, hu, hnone⟩
              refine iff_of_false ?_ fun h => h.1 hw.good hu hnext
              intro hsame
              obtain ⟨hs', hkept⟩ := spent_peek order (Or.inl hw) hu
              have hlost := @contents_of_spent order items _ hs' (keeps_of_admitted hcalls)
              have hgrown := length_perform_of_putsNext hw hu hnext hcalls
              have hcontents : (observe order items (after order .peek msg)).2
                  = (perform order (ownCalls items) msg).2 := congrArg Prod.snd hsame
              rw [← hcontents, hlost, hkept] at hgrown
              exact Nat.lt_irrefl _ hgrown
          · refine Iff.trans ?_ ((ih hs hcalls).trans ?_)
            · rw [Unnoticed, observe, after_peek hs hu]
              rfl
            · simp [Harmless, hu]

/-! ## Runs from a new stream -/

/-- Every admitted run of a new stream leaves it sane. -/
theorem sane_run (order : ArgOrder) (indeterminate : Nat → UInt8) {calls : List Call}
    (hcalls : EveryStep (after order) Admitted calls (.new indeterminate)) :
    Sane (run (after order) calls (.new indeterminate)) :=
  (everyState_of_invariant (fun _ _ hs ha => sane_call hs ha)
    (Or.inl (writable_new indeterminate)) hcalls).last

/-- `peek` shows the first unread byte, or that there is none. -/
def LooksAhead (msg : MessageStream) : Prop :=
  (KzrMessageStream.peek msg).1 = msg.unread.head?

/-- The end is taken for the byte 255, and a zero byte for the end. -/
theorem looksAhead_iff {msg : MessageStream} (hs : Sane msg) :
    LooksAhead msg ↔ ∃ b rest, msg.unread = b :: rest ∧ b ≠ 0 := by
  cases hu : msg.unread with
  | nil =>
      refine iff_of_false ?_ ?_
      · rw [LooksAhead, (peek_exhausted (Or.inr hu)).1, hu]
        exact nofun
      · rintro ⟨b, rest, hcons, -⟩
        exact nomatch hcons
  | cons b rest =>
      have hg : msg.good = true := by
        rcases hs with hw | hspent
        · exact hw.good
        · rw [hspent.empty] at hu
          exact nomatch hu
      rw [LooksAhead, peek_cons hg hu, hu, List.head?_cons]
      by_cases h0 : b = 0
      · simp [h0]
      · simp [h0]

/-- **WHEN PEEKING IS PURE LOOK-AHEAD**: it shows what comes next in the reachable
    states in which that is a byte other than zero; and peeks inserted into a
    program go unnoticed exactly when none of them exhausts the stream in front of
    output. -/
theorem peek_pure_iff (order : ArgOrder) (indeterminate : Nat → UInt8) :
    (∀ calls, EveryStep (after order) Admitted calls (.new indeterminate) →
      (LooksAhead (run (after order) calls (.new indeterminate))
        ↔ ∃ b rest, (run (after order) calls (.new indeterminate)).unread = b :: rest ∧ b ≠ 0))
      ∧ ∀ items, EveryStep (after order) Admitted (ownCalls items) (.new indeterminate) →
        (Unnoticed order items (.new indeterminate)
          ↔ Harmless order items (.new indeterminate)) := by
  constructor
  · intro calls hcalls
    exact looksAhead_iff (sane_run order indeterminate hcalls)
  · intro items hcalls
    exact unnoticed_iff (Or.inl (writable_new indeterminate)) hcalls

/-- A byte is encoded, peeked at and decoded. -/
theorem peek_pure_seven :
    let encode : Call := .op (.encode (.u8 7))
    LooksAhead (run (after .leftFirst) [encode] (.new fun _ => 0))
      ∧ Unnoticed .leftFirst [.own encode, .inserted, .own (.op (.decode .u8))]
        (.new fun _ => 0) := by
  intro encode
  obtain ⟨hlook, hinsert⟩ := peek_pure_iff .leftFirst fun _ => 0
  have hencode : ∀ msg, Admitted encode msg := fun _ => ⟨trivial, Nat.zero_le _⟩
  refine ⟨(hlook [encode] ⟨hencode _, trivial⟩).mpr ⟨7, [], rfl, by decide⟩, ?_⟩
  have hdecode : Admitted (.op (.decode .u8)) (after .leftFirst encode (.new fun _ => 0)) :=
    ⟨trivial, Nat.le_refl 1⟩
  refine (hinsert [.own encode, .inserted, .own (.op (.decode .u8))]
    ⟨hencode _, hdecode, trivial⟩).mpr ⟨?_, trivial⟩
  intro _ hu
  exact nomatch hu

/-- A zero byte is not seen, an exhausted stream shows 255, and the byte encoded
    after that is lost. -/
theorem peek_spends_stream :
    let fresh := MessageStream.new fun _ => 0
    ((KzrMessageStream.peek fresh).1 = some 255 ∧ fresh.unread = [])
      ∧ (let zero := after .leftFirst (.op (.encode (.u8 0))) fresh
        (KzrMessageStream.peek zero).1 = none ∧ zero.unread = [0])
      ∧ observe .leftFirst [.inserted, .own (.op (.encode (.u8 5)))] fresh = ([.of .done], [])
      ∧ perform .leftFirst [.op (.encode (.u8 5))] fresh = ([.of .done], [5])
      ∧ ¬ LooksAhead fresh
      ∧ ¬ Unnoticed .leftFirst [.inserted, .own (.op (.encode (.u8 5)))] fresh := by
  intro fresh
  refine ⟨⟨rfl, rfl⟩, ⟨rfl, rfl⟩, rfl, rfl, ?_, ?_⟩
  · exact nofun
  · intro hsame
    exact nomatch congrArg Prod.snd hsame

end KzrPeek
