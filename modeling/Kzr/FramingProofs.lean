import Kzr.RunProofs
import Kzr.WireFormatProofs

/-! # Frames on a stream

    A format none of whose encodings is empty frames a stream of symbols: a
    receiver takes off one encoding after the other until nothing more can be
    decoded.  A proper prefix of an encoding is never decoded, so the receiver of
    a torn stream gets what went out whole and keeps the rest.

    A sender puts encodings on a wire, none, one or several for each input, and may
    fail at any of them with some of the symbols gone out.  It is in step with its
    receiver exactly as long as a failure leaves nothing on the wire, and a sender
    that stops at its first failure has delivered all that went before.  Inputs may
    come from many parties, some of which do not use the wire at all; symbols,
    values, inputs and states are arbitrary types. -/

namespace Framing

open WireFormat Runs

variable {γ α S ι ε : Type}

/-- A format whose encodings take up room. -/
structure FrameFormat (γ α : Type) extends Format γ α where
  nonempty : ∀ a, encode a ≠ some []

/-! ## Receiving -/

/-- Take off at most `n` encodings; the values, and what is left over. -/
def FrameFormat.scan (f : FrameFormat γ α) : Nat → List γ → List α × List γ
  | 0, bs     => ([], bs)
  | n + 1, bs =>
      match f.decode bs with
      | none           => ([], bs)
      | some (a, rest) => (a :: (f.scan n rest).1, (f.scan n rest).2)

/-- Take off all that can be decoded; no more than one for each symbol. -/
def FrameFormat.receive (f : FrameFormat γ α) (bs : List γ) : List α × List γ :=
  f.scan bs.length bs

/-- Part of an encoding, and not all of it. -/
def Torn (p e : List γ) : Prop := p <+: e ∧ p ≠ e

/-- **NO TORN ENCODING IS DECODED**, by the laws of a format. -/
theorem decode_torn (f : FrameFormat γ α) {a : α} {p e : List γ} (he : f.encode a = some e)
    (hp : Torn p e) : f.decode p = none := by
  obtain ⟨⟨more, rfl⟩, hne⟩ := hp
  cases hd : f.decode p with
  | none => rfl
  | some r =>
      obtain ⟨a', rest⟩ := r
      obtain ⟨used, hused, rfl⟩ := f.encode_decode hd
      -- what was decoded and the whole encoding begin the same stream
      have hunique := f.unique he hused (x := []) (y := rest ++ more) (by simp)
      obtain ⟨-, hnil⟩ := hunique
      obtain ⟨-, rfl⟩ := List.append_eq_nil_iff.mp hnil.symm
      exact absurd (List.append_nil _).symm hne

theorem decode_nil (f : FrameFormat γ α) : f.decode [] = none := by
  cases hd : f.decode [] with
  | none => rfl
  | some r =>
      obtain ⟨a, rest⟩ := r
      obtain ⟨used, hused, hnil⟩ := f.encode_decode hd
      obtain ⟨rfl, -⟩ := List.append_eq_nil_iff.mp hnil.symm
      exact absurd hused (f.nonempty a)

theorem encodeEach_append (f : FrameFormat γ α) {as bs : List α} {x y : List γ}
    (hx : encodeEach f.encode as = some x) (hy : encodeEach f.encode bs = some y) :
    encodeEach f.encode (as ++ bs) = some (x ++ y) := by
  induction as generalizing x with
  | nil =>
      cases hx
      exact hy
  | cons a as ih =>
      obtain ⟨e, rest, he, hrest, rfl⟩ := cat_eq_some.mp hx
      rw [List.cons_append, encodeEach, he, ih hrest, cat_some, List.append_assoc]

theorem length_encodeEach (f : FrameFormat γ α) {as : List α} {bs : List γ}
    (h : encodeEach f.encode as = some bs) : as.length ≤ bs.length := by
  induction as generalizing bs with
  | nil => exact Nat.zero_le _
  | cons a as ih =>
      obtain ⟨e, rest, he, hrest, rfl⟩ := cat_eq_some.mp h
      have hpos : 0 < e.length := by
        refine List.length_pos_iff.mpr fun hnil => ?_
        exact f.nonempty a (hnil ▸ he)
      have hlen := ih hrest
      rw [List.length_cons, List.length_append]
      omega

theorem scan_encodeEach (f : FrameFormat γ α) {as : List α} {bs tail : List γ} {n : Nat}
    (h : encodeEach f.encode as = some bs) (htail : f.decode tail = none) (hn : as.length ≤ n) :
    f.scan n (bs ++ tail) = (as, tail) := by
  induction as generalizing bs n with
  | nil =>
      cases h
      cases n with
      | zero => rfl
      | succ n => rw [List.nil_append, FrameFormat.scan, htail]
  | cons a as ih =>
      obtain ⟨e, rest, he, hrest, rfl⟩ := cat_eq_some.mp h
      obtain ⟨n, rfl⟩ := Nat.exists_eq_add_of_le' (Nat.lt_of_lt_of_le as.length.succ_pos hn)
      rw [List.append_assoc, FrameFormat.scan, f.decode_encode he]
      simp only [ih hrest (Nat.le_of_succ_le_succ hn)]

/-- **THE RECEIVER GETS WHAT WENT OUT WHOLE** and keeps what cannot be decoded. -/
theorem receive_encodeEach (f : FrameFormat γ α) {as : List α} {bs tail : List γ}
    (h : encodeEach f.encode as = some bs) (htail : f.decode tail = none) :
    f.receive (bs ++ tail) = (as, tail) := by
  refine scan_encodeEach f h htail ?_
  rw [List.length_append]
  exact Nat.le_add_right_of_le (length_encodeEach f h)

theorem scan_partition (f : FrameFormat γ α) (n : Nat) (bs : List γ) :
    ∃ used, encodeEach f.encode (f.scan n bs).1 = some used ∧ bs = used ++ (f.scan n bs).2 := by
  induction n generalizing bs with
  | zero => exact ⟨[], rfl, rfl⟩
  | succ n ih =>
      cases hd : f.decode bs with
      | none =>
          simp only [FrameFormat.scan, hd]
          exact ⟨[], rfl, rfl⟩
      | some r =>
          obtain ⟨a, rest⟩ := r
          obtain ⟨e, he, hbs⟩ := f.encode_decode hd
          obtain ⟨used, hused, hrest⟩ := ih rest
          simp only [FrameFormat.scan, hd]
          refine ⟨e ++ used, ?_, ?_⟩
          · rw [encodeEach, he, hused, cat_some]
          · rw [List.append_assoc, ← hrest, hbs]

/-- What is received without a rest is what was encoded. -/
theorem receive_eq_iff (f : FrameFormat γ α) {as : List α} {bs : List γ} :
    f.receive bs = (as, []) ↔ encodeEach f.encode as = some bs := by
  constructor
  · intro h
    obtain ⟨used, hused, hbs⟩ := scan_partition f bs.length bs
    have hscan : f.scan bs.length bs = (as, []) := h
    rw [hscan] at hused hbs
    rwa [hbs, List.append_nil]
  · intro h
    have hwhole := receive_encodeEach f h (decode_nil f)
    rwa [List.append_nil] at hwhole

/-! ## Sending -/

variable {f : FrameFormat γ α} {P : ι → Prop} {Inv : S → Prop} {wire : S → List γ}
  {contents : ι → List α} {step : ι → S → Option ε × S}

/-- A machine that sends, on the inputs that satisfy `P` and under an invariant: the
    wire only grows, and when a step does not fail it grows by the encodings of what
    the input is to send. -/
structure Sends (f : FrameFormat γ α) (P : ι → Prop) (Inv : S → Prop) (wire : S → List γ)
    (contents : ι → List α) (step : ι → S → Option ε × S) : Prop where
  keeps : ∀ i s, Inv s → P i → Inv (step i s).2
  grows : ∀ i s, Inv s → P i → wire s <+: wire (step i s).2
  whole : ∀ i s, Inv s → P i → (step i s).1 = none →
    ∃ e, encodeEach f.encode (contents i) = some e ∧ wire (step i s).2 = wire s ++ e

/-- What a step leaves. -/
def next (step : ι → S → Option ε × S) (i : ι) (s : S) : S := (step i s).2

/-- A step that fails leaves nothing on the wire. -/
def Clean (wire : S → List γ) (step : ι → S → Option ε × S) (i : ι) (s : S) : Prop :=
  (step i s).1 ≠ none → wire (step i s).2 = wire s

/-- The inputs that did not fail. -/
def succeeded (step : ι → S → Option ε × S) : List ι → S → List ι
  | [], _      => []
  | i :: is, s =>
      match (step i s).1 with
      | none   => i :: succeeded step is (step i s).2
      | some _ => succeeded step is (step i s).2

/-- An input that succeeded is one of those given, and did so under the invariant. -/
theorem Sends.of_succeeded (h : Sends f P Inv wire contents step) {is : List ι}
    (hP : ∀ i ∈ is, P i) {s : S} (hs : Inv s) {j : ι} (hj : j ∈ succeeded step is s) :
    j ∈ is ∧ ∃ t, Inv t ∧ (step j t).1 = none := by
  induction is generalizing s with
  | nil => exact absurd hj List.not_mem_nil
  | cons i is ih =>
      have hnext := h.keeps i s hs (hP i List.mem_cons_self)
      have hrest (hj' : j ∈ succeeded step is (step i s).2) :
          j ∈ i :: is ∧ ∃ t, Inv t ∧ (step j t).1 = none := by
        obtain ⟨hmem, ht⟩ := ih (fun k hk => hP k (List.mem_cons_of_mem i hk)) hnext hj'
        exact ⟨List.mem_cons_of_mem i hmem, ht⟩
      cases hstep : (step i s).1 with
      | none =>
          simp only [succeeded, hstep, List.mem_cons] at hj
          rcases hj with rfl | hj
          · exact ⟨List.mem_cons_self, s, hs, hstep⟩
          · exact hrest hj
      | some ex =>
          simp only [succeeded, hstep] at hj
          exact hrest hj

/-- What succeeded takes up part of what went out, and all of it exactly when no
    failure left anything. -/
theorem Sends.encodeEach_succeeded (h : Sends f P Inv wire contents step) {is : List ι}
    (hP : ∀ i ∈ is, P i) {s : S} (hs : Inv s) :
    ∃ sent used, wire (run (next step) is s) = wire s ++ sent
      ∧ encodeEach f.encode ((succeeded step is s).flatMap contents) = some used
      ∧ used.length ≤ sent.length
      ∧ (used = sent ↔ EveryStep (next step) (Clean wire step) is s) := by
  induction is generalizing s with
  | nil => exact ⟨[], [], (List.append_nil _).symm, rfl, Nat.le_refl _, by simp [EveryStep]⟩
  | cons i is ih =>
      have hPi := hP i List.mem_cons_self
      obtain ⟨sent, used, hsent, hused, hlen, hiff⟩ :=
        ih (fun j hj => hP j (List.mem_cons_of_mem i hj)) (h.keeps i s hs hPi)
      have hrun : run (next step) (i :: is) s = run (next step) is (step i s).2 := rfl
      rw [hrun, hsent]
      cases hstep : (step i s).1 with
      | none =>
          obtain ⟨e, he, hwire⟩ := h.whole i s hs hPi hstep
          refine ⟨e ++ sent, e ++ used, by rw [hwire, List.append_assoc], ?_,
            by simpa using hlen, ?_⟩
          · simp only [succeeded, hstep, List.flatMap_cons]
            exact encodeEach_append f he hused
          · rw [List.append_cancel_left_eq, hiff]
            exact ⟨fun hrest => ⟨fun hne => absurd hstep hne, hrest⟩, fun hall => hall.2⟩
      | some ex =>
          obtain ⟨lost, hlost⟩ := h.grows i s hs hPi
          refine ⟨lost ++ sent, used, by rw [← hlost, List.append_assoc], ?_, ?_, ?_⟩
          · simpa only [succeeded, hstep] using hused
          · rw [List.length_append]
            exact Nat.le_add_left_of_le hlen
          · constructor
            · intro heq
              -- there is no room for what was lost
              have hroom := congrArg List.length heq
              rw [List.length_append] at hroom
              obtain rfl : lost = [] := List.length_eq_zero_iff.mp (by omega)
              exact ⟨fun _ => by rw [← hlost, List.append_nil], hiff.mp heq⟩
            · rintro ⟨hclean, hrest⟩
              have hnone := hclean (by rw [hstep]; exact Option.some_ne_none ex)
              rw [← hlost, List.append_right_eq_self] at hnone
              rw [hnone, List.nil_append]
              exact hiff.mpr hrest

/-- **IN STEP**: a receiver has exactly what succeeded, and nothing left over, if
    and only if no failure left anything on the wire. -/
theorem Sends.receive_iff (h : Sends f P Inv wire contents step) {is : List ι}
    (hP : ∀ i ∈ is, P i) {s : S} (hs : Inv s) :
    ∃ sent, wire (run (next step) is s) = wire s ++ sent
      ∧ (f.receive sent = ((succeeded step is s).flatMap contents, [])
        ↔ EveryStep (next step) (Clean wire step) is s) := by
  obtain ⟨sent, used, hsent, hused, -, hiff⟩ := h.encodeEach_succeeded hP hs
  refine ⟨sent, hsent, ?_⟩
  rw [receive_eq_iff, hused, Option.some.injEq]
  exact hiff

/-! ## Stopping at the first failure -/

/-- Send one input after the other, up to the first that fails. -/
def sendEach (step : ι → S → Option ε × S) : List ι → S → Option ε × S
  | [], s      => (none, s)
  | i :: is, s =>
      match step i s with
      | (none, s')    => sendEach step is s'
      | (some ex, s') => (some ex, s')

/-- What a failure leaves on the wire is `Left` by it, and nothing can be decoded
    from it. -/
structure Tears (f : FrameFormat γ α) (P : ι → Prop) (Inv : S → Prop) (wire : S → List γ)
    (step : ι → S → Option ε × S) (Left : ι → ε → List γ → Prop) : Prop where
  leaves : ∀ i s ex, Inv s → P i → (step i s).1 = some ex →
    ∃ p, wire (step i s).2 = wire s ++ p ∧ Left i ex p
  torn   : ∀ i ex p, Left i ex p → f.decode p = none

/-- How far a sender got: the inputs `before` went out whole, and of the one behind
    them `tail`, when the result is a failure. -/
structure Reached (Left : ι → ε → List γ → Prop) (is : List ι) (result : Option ε)
    (before : List ι) (tail : List γ) : Prop where
  complete : result = none → before = is ∧ tail = []
  stopped  : ∀ ex, result = some ex → ∃ i more, is = before ++ i :: more ∧ Left i ex tail

variable {Left : ι → ε → List γ → Prop}

theorem Reached.cons {is : List ι} {result : Option ε} {before : List ι} {tail : List γ}
    (h : Reached Left is result before tail) (i : ι) :
    Reached Left (i :: is) result (i :: before) tail where
  complete := by
    intro hnone
    obtain ⟨rfl, htail⟩ := h.complete hnone
    exact ⟨rfl, htail⟩
  stopped := by
    intro ex hex
    obtain ⟨j, more, rfl, hleft⟩ := h.stopped ex hex
    exact ⟨j, more, rfl, hleft⟩

theorem Sends.sendEach_cases (h : Sends f P Inv wire contents step)
    (htears : Tears f P Inv wire step Left) {is : List ι} (hP : ∀ i ∈ is, P i) {s : S}
    (hs : Inv s) :
    ∃ before used tail, wire (sendEach step is s).2 = wire s ++ (used ++ tail)
      ∧ encodeEach f.encode (before.flatMap contents) = some used
      ∧ Reached Left is (sendEach step is s).1 before tail := by
  induction is generalizing s with
  | nil =>
      refine ⟨[], [], [], (List.append_nil _).symm, rfl, fun _ => ⟨rfl, rfl⟩, ?_⟩
      intro ex hex
      cases hex
  | cons i is ih =>
      have hPi := hP i List.mem_cons_self
      have hkeeps := h.keeps i s hs hPi
      rcases hstep : step i s with ⟨_ | ex, s'⟩
      · rw [hstep] at hkeeps
        obtain ⟨before, used, tail, hwire, hused, hreached⟩ :=
          ih (fun j hj => hP j (List.mem_cons_of_mem i hj)) hkeeps
        obtain ⟨e, he, hgrown⟩ := h.whole i s hs hPi (congrArg Prod.fst hstep)
        have hrun : sendEach step (i :: is) s = sendEach step is s' := by
          simp only [sendEach, hstep]
        rw [hstep] at hgrown
        rw [hrun]
        refine ⟨i :: before, e ++ used, tail, ?_, ?_, hreached.cons i⟩
        · rw [hwire, hgrown, List.append_assoc, List.append_assoc]
        · rw [List.flatMap_cons]
          exact encodeEach_append f he hused
      · obtain ⟨p, hwire, hleft⟩ := htears.leaves i s ex hs hPi (congrArg Prod.fst hstep)
        have hrun : sendEach step (i :: is) s = (some ex, s') := by
          simp only [sendEach, hstep]
        rw [hstep] at hwire
        rw [hrun]
        refine ⟨[], [], p, hwire, rfl, ?_, ?_⟩
        · intro hnone
          cases hnone
        · rintro _ ⟨⟩
          exact ⟨i, is, rfl, hleft⟩

/-- **ALL THAT WENT BEFORE IS DELIVERED**: the receiver has the contents of the
    inputs in front of the first that failed, and keeps what is left of that one. -/
theorem Sends.receive_sendEach (h : Sends f P Inv wire contents step)
    (htears : Tears f P Inv wire step Left) {is : List ι} (hP : ∀ i ∈ is, P i) {s : S}
    (hs : Inv s) :
    ∃ before tail sent, wire (sendEach step is s).2 = wire s ++ sent
      ∧ f.receive sent = (before.flatMap contents, tail)
      ∧ Reached Left is (sendEach step is s).1 before tail := by
  obtain ⟨before, used, tail, hwire, hused, hreached⟩ := h.sendEach_cases htears hP hs
  refine ⟨before, tail, used ++ tail, hwire, receive_encodeEach f hused ?_, hreached⟩
  cases hresult : (sendEach step is s).1 with
  | none =>
      obtain ⟨-, rfl⟩ := hreached.complete hresult
      exact decode_nil f
  | some ex =>
      obtain ⟨i, more, -, hleft⟩ := hreached.stopped ex hresult
      exact htears.torn i ex tail hleft

end Framing
