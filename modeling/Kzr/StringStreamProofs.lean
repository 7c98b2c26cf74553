import Mathlib.Data.List.Basic
import Mathlib.Tactic.Common

/-! # String streams — one buffer, two positions, three sticky flags

    An in-memory character stream opened for input and output, as the C++17
    standard describes `basic_stringstream`: a buffer with a get and a put
    position, and the flags `eofbit`, `failbit`, `badbit` that every operation
    consults and only `clear` lowers.  The module names no program; its
    characters are an arbitrary type.

    * output on a stream that is not `good` stores nothing;
    * a read past the end stores what there is and raises `eofbit`, `failbit`;
    * replacing the contents moves both positions to the front and leaves the
      flags alone.

    A stream is `Writable` when it is good and its put position is at the end
    of the buffer; there, and only there, output appends. -/

namespace CharStream

variable {γ : Type}

/-- A string stream.  Both positions lie inside the buffer by construction. -/
@[ext]
structure StringStream (γ : Type) where
  buf     : List γ
  gpos    : Nat
  ppos    : Nat
  eofbit  : Bool
  failbit : Bool
  badbit  : Bool
  gpos_le : gpos ≤ buf.length
  ppos_le : ppos ≤ buf.length
deriving DecidableEq

/-- The stream a default constructor makes. -/
def StringStream.empty : StringStream γ where
  buf := []
  gpos := 0
  ppos := 0
  eofbit := false
  failbit := false
  badbit := false
  gpos_le := Nat.le_refl _
  ppos_le := Nat.le_refl _

/-- `good()`: no flag is up. -/
def StringStream.good (s : StringStream γ) : Bool :=
  !s.eofbit && !s.failbit && !s.badbit

/-- `eof()`. -/
def StringStream.eof (s : StringStream γ) : Bool := s.eofbit

/-- `fail()`: a failure or a broken stream. -/
def StringStream.fail (s : StringStream γ) : Bool := s.failbit || s.badbit

/-- `bad()`. -/
def StringStream.bad (s : StringStream γ) : Bool := s.badbit

/-- The characters between the get position and the end of the buffer. -/
def StringStream.unread (s : StringStream γ) : List γ := s.buf.drop s.gpos

/-- `str()`: the whole buffer, whatever has been read of it. -/
def StringStream.str (s : StringStream γ) : List γ := s.buf

/-- `str(t)`: new contents, both positions at the front, flags untouched. -/
def StringStream.setStr (s : StringStream γ) (t : List γ) : StringStream γ :=
  { s with
    buf := t
    gpos := 0
    ppos := 0
    gpos_le := Nat.zero_le _
    ppos_le := Nat.zero_le _ }

/-- `clear()`: lower every flag. -/
def StringStream.clear (s : StringStream γ) : StringStream γ :=
  { s with eofbit := false, failbit := false, badbit := false }

/-- Replace the characters from position `p` on, lengthening the buffer when
    they reach past its end. -/
def overwrite (buf : List γ) (p : Nat) (cs : List γ) : List γ :=
  buf.take p ++ cs ++ buf.drop (p + cs.length)

theorem length_overwrite {buf : List γ} {p : Nat} (h : p ≤ buf.length)
    (cs : List γ) :
    (overwrite buf p cs).length = max buf.length (p + cs.length) := by
  simp only [overwrite, List.length_append, List.length_take, List.length_drop]
  omega

/-- `write(cs)`: the sentry refuses a stream that is not good; otherwise the
    characters go to the put position. -/
def StringStream.write (s : StringStream γ) (cs : List γ) : StringStream γ :=
  if s.good then
    { s with
      buf := overwrite s.buf s.ppos cs
      ppos := s.ppos + cs.length
      gpos_le := by
        have := s.gpos_le
        rw [length_overwrite s.ppos_le]
        omega
      ppos_le := by
        rw [length_overwrite s.ppos_le]
        omega }
  else { s with failbit := true }

/-- `put(c)`. -/
def StringStream.put (s : StringStream γ) (c : γ) : StringStream γ := s.write [c]

/-- Move the get position forward, stopping at the end of the buffer. -/
def StringStream.advance (s : StringStream γ) (n : Nat) : StringStream γ :=
  { s with
    gpos := min (s.gpos + n) s.buf.length
    gpos_le := Nat.min_le_right _ _ }

/-- `get(c)`: the next character, if there is one. -/
def StringStream.get (s : StringStream γ) : Option γ × StringStream γ :=
  if s.good then
    match s.unread with
    | c :: _ => (some c, s.advance 1)
    | []     => (none, { s with eofbit := true, failbit := true })
  else (none, { s with failbit := true })

/-- `read(p, n)`: the characters stored at `p`; there are `gcount()` of them. -/
def StringStream.read (s : StringStream γ) (n : Nat) : List γ × StringStream γ :=
  if s.good then
    if n ≤ s.unread.length then (s.unread.take n, s.advance n)
    -- a short read stores what there is; the caller gets no error
    else (s.unread, { s.advance n with eofbit := true, failbit := true })
  else ([], { s with failbit := true })

/-- `peek()`: the next character without taking it.  At the end of a good
    stream it raises `eofbit` alone. -/
def StringStream.peek (s : StringStream γ) : Option γ × StringStream γ :=
  if s.good then
    match s.unread with
    | c :: _ => (some c, s)
    | []     => (none, { s with eofbit := true })
  else (none, { s with failbit := true })

/-! ## Reading forward -/

@[simp] theorem good_advance (s : StringStream γ) (n : Nat) :
    (s.advance n).good = s.good := rfl

theorem advance_zero (s : StringStream γ) : s.advance 0 = s := by
  have := s.gpos_le
  ext1 <;> simp [StringStream.advance]
  omega

theorem advance_advance (s : StringStream γ) (m n : Nat) :
    (s.advance m).advance n = s.advance (m + n) := by
  ext1 <;> simp only [StringStream.advance]
  omega

@[simp] theorem unread_advance (s : StringStream γ) (n : Nat) :
    (s.advance n).unread = s.unread.drop n := by
  simp only [StringStream.unread, StringStream.advance, List.drop_drop]
  by_cases h : s.gpos + n ≤ s.buf.length
  · rw [Nat.min_eq_left h]
  · rw [Nat.min_eq_right (by omega), List.drop_length, List.drop_eq_nil_of_le (by omega)]

/-- The unread characters of an untouched good stream determine a `get`. -/
theorem get_cons {s : StringStream γ} {c : γ} {cs : List γ}
    (hg : s.good = true) (hu : s.unread = c :: cs) :
    s.get = (some c, s.advance 1) := by
  simp [StringStream.get, hg, hu]

/-- At the end, `get` takes nothing and both flags go up. -/
theorem get_nil {s : StringStream γ} (hg : s.good = true) (hu : s.unread = []) :
    s.get = (none, { s with eofbit := true, failbit := true }) := by
  simp [StringStream.get, hg, hu]

/-- A read of no more than what is unread takes exactly that much. -/
theorem read_le {s : StringStream γ} {n : Nat}
    (hg : s.good = true) (hn : n ≤ s.unread.length) :
    s.read n = (s.unread.take n, s.advance n) := by
  simp [StringStream.read, hg, hn]

theorem read_append {s : StringStream γ} {cs rest : List γ}
    (hg : s.good = true) (hu : s.unread = cs ++ rest) :
    s.read cs.length = (cs, s.advance cs.length) := by
  rw [read_le hg (by simp [hu]), hu, List.take_left]

/-- Asked for more than there is, `read` takes all of it and both flags go up. -/
theorem read_gt {s : StringStream γ} {n : Nat}
    (hg : s.good = true) (hn : s.unread.length < n) :
    s.read n = (s.unread, { s.advance n with eofbit := true, failbit := true }) := by
  simp [StringStream.read, hg, Nat.not_le.mpr hn]

/-! ## A stream that is not good stays so -/

theorem get_of_not_good {s : StringStream γ} (hg : s.good = false) :
    s.get = (none, { s with failbit := true }) := by
  simp [StringStream.get, hg]

theorem read_of_not_good {s : StringStream γ} (hg : s.good = false) (n : Nat) :
    s.read n = ([], { s with failbit := true }) := by
  simp [StringStream.read, hg]

theorem write_of_not_good {s : StringStream γ} (hg : s.good = false) (cs : List γ) :
    s.write cs = { s with failbit := true } := by
  simp [StringStream.write, hg]

/-- After a `get` the stream is good only if there was a character to take. -/
theorem get_good {s : StringStream γ} (h : s.get.2.good = true) :
    s.good = true ∧ ∃ c rest, s.unread = c :: rest
      ∧ s.get = (some c, s.advance 1) := by
  by_cases hg : s.good = true
  · cases hu : s.unread with
    | nil =>
        rw [get_nil hg hu] at h
        simp [StringStream.good] at h
    | cons c rest => exact ⟨hg, c, rest, rfl, get_cons hg hu⟩
  · rw [get_of_not_good (by simpa using hg)] at h
    simp [StringStream.good] at h

/-- After a `read` the stream is good only if all that was asked for was there. -/
theorem read_good {s : StringStream γ} {n : Nat} (h : (s.read n).2.good = true) :
    s.good = true ∧ n ≤ s.unread.length
      ∧ s.read n = (s.unread.take n, s.advance n) := by
  by_cases hg : s.good = true
  · by_cases hn : n ≤ s.unread.length
    · exact ⟨hg, hn, read_le hg hn⟩
    · rw [read_gt hg (by omega)] at h
      simp [StringStream.good] at h
  · rw [read_of_not_good (by simpa using hg)] at h
    simp [StringStream.good] at h

/-! ## Appending -/

/-- Put `cs` behind everything the buffer holds. -/
def StringStream.append (s : StringStream γ) (cs : List γ) : StringStream γ :=
  { s with
    buf := s.buf ++ cs
    ppos := (s.buf ++ cs).length
    gpos_le := by
      have := s.gpos_le
      rw [List.length_append]
      omega
    ppos_le := Nat.le_refl _ }

/-- Output appends: the stream is good and the put position is at the end. -/
structure StringStream.Writable (s : StringStream γ) : Prop where
  good   : s.good = true
  at_end : s.ppos = s.buf.length

theorem writable_empty : (StringStream.empty : StringStream γ).Writable := ⟨rfl, rfl⟩

@[simp] theorem good_append (s : StringStream γ) (cs : List γ) :
    (s.append cs).good = s.good := rfl

theorem writable_append {s : StringStream γ} (h : s.Writable) (cs : List γ) :
    (s.append cs).Writable := ⟨h.good, rfl⟩

theorem append_nil {s : StringStream γ} (h : s.Writable) : s.append [] = s := by
  ext1 <;> simp [StringStream.append, h.at_end]

theorem append_append (s : StringStream γ) (cs ds : List γ) :
    (s.append cs).append ds = s.append (cs ++ ds) := by
  ext1 <;> simp [StringStream.append, List.append_assoc]

theorem unread_append (s : StringStream γ) (cs : List γ) :
    (s.append cs).unread = s.unread ++ cs := by
  simp only [StringStream.unread, StringStream.append]
  exact List.drop_append_of_le_length s.gpos_le

theorem overwrite_length (buf cs : List γ) :
    overwrite buf buf.length cs = buf ++ cs := by
  simp [overwrite]

/-- **OUTPUT APPENDS** on a writable stream. -/
theorem write_of_writable {s : StringStream γ} (h : s.Writable) (cs : List γ) :
    s.write cs = s.append cs := by
  ext1 <;> simp [StringStream.write, StringStream.append, h.good, h.at_end, overwrite_length]

theorem put_of_writable {s : StringStream γ} (h : s.Writable) (c : γ) :
    s.put c = s.append [c] := write_of_writable h [c]

/-! ## Writing anywhere -/

/-- Output leaves a stream good if it was, and only then. -/
theorem good_write (s : StringStream γ) (cs : List γ) : (s.write cs).good = s.good := by
  by_cases hg : s.good = true
  · simp only [StringStream.write, hg, if_true]
    exact hg
  · have hbad : s.good = false := by simpa using hg
    rw [write_of_not_good hbad, hbad]
    simp [StringStream.good]

/-- Output does not break a stream. -/
theorem bad_write (s : StringStream γ) (cs : List γ) : (s.write cs).bad = s.bad := by
  by_cases hg : s.good = true
  · simp only [StringStream.write, hg, if_true]
    rfl
  · rw [write_of_not_good (by simpa using hg)]
    rfl

/-- With its flags down and its contents gone a stream is a new one. -/
theorem setStr_nil {s : StringStream γ} (hg : s.good = true) : s.setStr [] = .empty := by
  simp only [StringStream.good, Bool.and_eq_true, Bool.not_eq_true'] at hg
  obtain ⟨⟨heof, hfail⟩, hbad⟩ := hg
  ext1
  · rfl
  · rfl
  · rfl
  · exact heof
  · exact hfail
  · exact hbad

theorem overwrite_append {buf : List γ} {p : Nat} (hp : p ≤ buf.length) (cs ds : List γ) :
    overwrite (overwrite buf p cs) (p + cs.length) ds = overwrite buf p (cs ++ ds) := by
  have htake : (buf.take p ++ cs).length = p + cs.length := by
    rw [List.length_append, List.length_take_of_le hp]
  -- the second write starts where the first one stopped
  have hfront : (buf.take p ++ cs ++ buf.drop (p + cs.length)).take (p + cs.length)
      = buf.take p ++ cs := List.take_left' htake
  have hback : (buf.take p ++ cs ++ buf.drop (p + cs.length)).drop (p + cs.length + ds.length)
      = buf.drop (p + cs.length + ds.length) := by
    rw [← htake, List.drop_append, List.drop_drop, htake]
    simp [List.drop_eq_nil_of_le, htake]
  rw [overwrite, overwrite, hfront, hback, overwrite, List.length_append]
  simp only [List.append_assoc, Nat.add_assoc]

/-- Writing over the same characters, and nothing else, changes nothing. -/
theorem overwrite_eq_self_iff {buf : List γ} {p : Nat} (hp : p ≤ buf.length) (cs : List γ) :
    overwrite buf p cs = buf ↔ cs <+: buf.drop p := by
  constructor
  · intro h
    have hdrop : (overwrite buf p cs).drop p = cs ++ buf.drop (p + cs.length) := by
      rw [overwrite, List.append_assoc, List.drop_left' (List.length_take_of_le hp)]
    rw [h] at hdrop
    exact ⟨_, hdrop.symm⟩
  · rintro ⟨t, ht⟩
    have hback : buf.drop (p + cs.length) = t := by
      rw [← List.drop_drop, ← ht, List.drop_left]
    rw [overwrite, hback, List.append_assoc, ht, List.take_append_drop]

theorem write_nil {s : StringStream γ} (hg : s.good = true) : s.write [] = s := by
  ext1 <;> simp [StringStream.write, hg, overwrite]

/-- Two writes in a row are one. -/
theorem write_append (s : StringStream γ) (cs ds : List γ) :
    (s.write cs).write ds = s.write (cs ++ ds) := by
  by_cases hg : s.good = true
  · have hg' : (s.write cs).good = true := (good_write s cs).trans hg
    ext1 <;> simp only [StringStream.write, hg, if_true] at hg' ⊢ <;> simp only [hg', if_true]
    · exact overwrite_append s.ppos_le cs ds
    · rw [List.length_append, Nat.add_assoc]
  · have hbad : s.good = false := by simpa using hg
    have hbad' : (s.write cs).good = false := (good_write s cs).trans hbad
    rw [write_of_not_good hbad', write_of_not_good hbad, write_of_not_good hbad]

/-- **WHEN OUTPUT APPENDS**: a write leaves its characters behind all that is
    unread exactly when there are none or the stream is writable. -/
theorem unread_write_iff (s : StringStream γ) (cs : List γ) :
    (s.write cs).unread = s.unread ++ cs ↔ cs = [] ∨ s.Writable := by
  constructor
  · intro h
    by_cases hg : s.good = true
    · have hlen := congrArg List.length h
      simp only [StringStream.write, hg, if_true, StringStream.unread, List.length_append,
        List.length_drop, length_overwrite s.ppos_le] at hlen
      -- only at the end do the lengths add up: elsewhere something is overwritten
      have hgpos := s.gpos_le
      have hppos := s.ppos_le
      by_cases hcs : cs.length = 0
      · exact Or.inl (List.length_eq_zero_iff.mp hcs)
      · exact Or.inr ⟨hg, by omega⟩
    · rw [write_of_not_good (by simpa using hg)] at h
      exact Or.inl (List.self_eq_append_right.mp h)
  · rintro (rfl | hw)
    · by_cases hg : s.good = true
      · simp [StringStream.write, hg, StringStream.unread, overwrite]
      · rw [write_of_not_good (by simpa using hg), List.append_nil]
        rfl
    · rw [write_of_writable hw, unread_append]

/-! ## Reading anywhere -/

/-- A read gets what it asked for, or all there is. -/
theorem fst_read (s : StringStream γ) (n : Nat) :
    (s.read n).1 = if s.good then s.unread.take n else [] := by
  by_cases hg : s.good = true
  · rw [if_pos hg]
    by_cases hn : n ≤ s.unread.length
    · rw [read_le hg hn]
    · rw [read_gt hg (by omega), List.take_of_length_le (by omega)]
  · rw [if_neg hg, read_of_not_good (by simpa using hg)]

/-- And it moves past what it asked for, or to the end. -/
theorem unread_read (s : StringStream γ) (n : Nat) :
    (s.read n).2.unread = if s.good then s.unread.drop n else s.unread := by
  by_cases hg : s.good = true
  · rw [if_pos hg]
    by_cases hn : n ≤ s.unread.length
    · rw [read_le hg hn, unread_advance]
    · rw [read_gt hg (by omega)]
      exact unread_advance s n
  · rw [if_neg hg, read_of_not_good (by simpa using hg)]
    rfl

theorem unread_get (s : StringStream γ) :
    s.get.2.unread = if s.good then s.unread.drop 1 else s.unread := by
  by_cases hg : s.good = true
  · rw [if_pos hg]
    cases hu : s.unread with
    | nil =>
        rw [get_nil hg hu]
        exact hu
    | cons c cs => rw [get_cons hg hu, unread_advance, hu]
  · rw [if_neg hg, get_of_not_good (by simpa using hg)]
    rfl

/-- Looking ahead takes nothing, stores nothing and breaks nothing. -/
theorem peek_keeps (s : StringStream γ) :
    s.peek.2.unread = s.unread ∧ s.peek.2.str = s.str ∧ s.peek.2.bad = s.bad := by
  by_cases hg : s.good = true
  · simp only [StringStream.peek, hg, if_true]
    cases hu : s.unread with
    | nil => exact ⟨hu, rfl, rfl⟩
    | cons c cs => exact ⟨hu, rfl, rfl⟩
  · simp only [StringStream.peek, hg]
    exact ⟨rfl, rfl, rfl⟩

theorem unread_peek (s : StringStream γ) : s.peek.2.unread = s.unread := (peek_keeps s).1

/-- A read leaves a stream good that had all it asked for. -/
theorem good_read (s : StringStream γ) (n : Nat) :
    (s.read n).2.good = true ↔ s.good = true ∧ n ≤ s.unread.length := by
  constructor
  · intro h
    exact ⟨(read_good h).1, (read_good h).2.1⟩
  · rintro ⟨hg, hn⟩
    rw [read_le hg hn]
    exact hg

end CharStream
