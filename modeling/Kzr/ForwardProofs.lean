import Kzr.FieldProofs
import Kzr.RunProofs

/-! # Decoding only reads

    A decoder is a program over three ways to read the string stream: a single
    character, a number of characters into a temporary, and a number of
    characters into a string.  `Decodes` says so, and the decoders of all fields
    are such programs, so every class is; what the three keep, and two programs in
    a row keep, every decoder keeps.

    What they keep is everything but the get position and the flags, and these
    they move in one direction only. -/

namespace KzrForward

open CharStream KzrOperation KzrMessageStream KzrIntegerCodec KzrCodec KzrMessage
open KzrMessageCodec KzrInteraction KzrInteractionCodec
open KzrField (Field Consists consists_codec)
open Runs (run)

variable {γ α β : Type} {dir : MessageDirection} {kind : ConceptualOperation}

/-! ## Streams that have been read -/

/-- `t` is `s` after some reading. -/
structure Forward (s t : StringStream γ) : Prop where
  contents : t.str = s.str
  put      : t.ppos = s.ppos
  broken   : t.bad = s.bad
  position : s.gpos ≤ t.gpos
  eof      : s.eofbit = true → t.eofbit = true
  failed   : s.failbit = true → t.failbit = true

theorem Forward.refl (s : StringStream γ) : Forward s s :=
  ⟨rfl, rfl, rfl, Nat.le_refl _, id, id⟩

/-- Reading on is reading. -/
theorem Forward.trans {s t u : StringStream γ} (h : Forward s t) (h' : Forward t u) :
    Forward s u where
  contents := h'.contents.trans h.contents
  put := h'.put.trans h.put
  broken := h'.broken.trans h.broken
  position := Nat.le_trans h.position h'.position
  eof := fun hs => h'.eof (h.eof hs)
  failed := fun hs => h'.failed (h.failed hs)

/-- A stream that was not good stays so. -/
theorem Forward.flagged {s t : StringStream γ} (h : Forward s t) (hs : s.good = false) :
    t.good = false := by
  by_contra ht
  simp only [StringStream.good, Bool.not_eq_false, Bool.and_eq_true, Bool.not_eq_true'] at hs ht
  obtain ⟨⟨heof, hfail⟩, hbad⟩ := ht
  have heof' : s.eofbit = false := by
    cases he : s.eofbit with
    | false => rfl
    | true => rw [h.eof he] at heof; exact heof
  have hfail' : s.failbit = false := by
    cases hf : s.failbit with
    | false => rfl
    | true => rw [h.failed hf] at hfail; exact hfail
  have hbad' : s.badbit = false := h.broken.symm.trans hbad
  rw [heof', hfail', hbad'] at hs
  exact absurd hs (by decide)

/-- What is unread stays unread or is gone, from the front. -/
theorem Forward.unread {s t : StringStream γ} (h : Forward s t) : t.unread <:+ s.unread := by
  have hbuf : t.buf = s.buf := h.contents
  obtain ⟨k, hk⟩ := Nat.exists_eq_add_of_le h.position
  rw [StringStream.unread, StringStream.unread, hbuf, hk, ← List.drop_drop]
  exact List.drop_suffix k _

/-- Taking characters is reading. -/
theorem forward_advance (s : StringStream γ) (n : Nat) : Forward s (s.advance n) where
  contents := rfl
  put := rfl
  broken := rfl
  position := Nat.le_min.mpr ⟨Nat.le_add_right _ _, s.gpos_le⟩
  eof := id
  failed := id

theorem forward_failing (s : StringStream γ) : Forward s { s with failbit := true } :=
  ⟨rfl, rfl, rfl, Nat.le_refl _, id, fun _ => rfl⟩

theorem forward_exhausted (s : StringStream γ) :
    Forward s { s with eofbit := true, failbit := true } :=
  ⟨rfl, rfl, rfl, Nat.le_refl _, fun _ => rfl, fun _ => rfl⟩

/-- A single character is taken, or a flag goes up. -/
theorem forward_get (s : StringStream γ) : Forward s s.get.2 := by
  by_cases hg : s.good = true
  · cases hu : s.unread with
    | nil =>
        rw [get_nil hg hu]
        exact forward_exhausted s
    | cons c cs =>
        rw [get_cons hg hu]
        exact forward_advance s 1
  · rw [get_of_not_good (by simpa using hg)]
    exact forward_failing s

/-- So many characters are taken, or all there are and the flags go up. -/
theorem forward_read (s : StringStream γ) (n : Nat) : Forward s (s.read n).2 := by
  by_cases hg : s.good = true
  · by_cases hn : n ≤ s.unread.length
    · rw [read_le hg hn]
      exact forward_advance s n
    · rw [read_gt hg (by omega)]
      exact (forward_advance s n).trans (forward_exhausted _)
  · rw [read_of_not_good (by simpa using hg)]
    exact forward_failing s

/-- A look takes nothing, but may raise a flag. -/
theorem forward_peek (s : StringStream γ) : Forward s s.peek.2 := by
  by_cases hg : s.good = true
  · simp only [StringStream.peek, hg, if_true]
    cases hu : s.unread with
    | nil => exact ⟨rfl, rfl, rfl, Nat.le_refl _, fun _ => rfl, id⟩
    | cons c cs => exact .refl s
  · simp only [StringStream.peek, hg]
    exact forward_failing s

/-! ## Programs that read -/

/-- `_storage.read(data.data(), len)` behind `data.reserve(len)`. -/
def readCharacters (data : Bytes) (n : Nat) : Get Bytes := fun msg =>
  match msg.storage.read n with
  | (got, storage) => (storeAt data got, { msg with storage := storage })

/-- The programs over the three ways to read. -/
inductive Decodes : {α : Type} → Get α → Prop where
  | done {α : Type} (a : α) : Decodes (pure a)
  | character : Decodes storageGet
  | temporary (n : Nat) : Decodes (storageRead n)
  | characters (data : Bytes) (n : Nat) : Decodes (readCharacters data n)
  | bind {α β : Type} {d : Get α} {f : α → Get β} (hd : Decodes d) (hf : ∀ a, Decodes (f a)) :
      Decodes (d >>= f)

/-- **WHAT READING KEEPS**, every such program keeps. -/
theorem Decodes.forward {d : Get α} (h : Decodes d) (msg : MessageStream) :
    Forward msg.storage (d msg).2.storage := by
  induction h generalizing msg with
  | done a => exact .refl _
  | character =>
      have hget : (storageGet msg).2.storage = msg.storage.get.2 := by
        simp only [storageGet]
        cases msg.storage.get with
        | mk c storage => cases c <;> rfl
      rw [hget]
      exact forward_get msg.storage
  | temporary n => exact forward_read msg.storage n
  | characters data n => exact forward_read msg.storage n
  | bind hd hf ihd ihf => exact (ihd msg).trans (ihf _ _)

/-- Assembling the result reads nothing more. -/
theorem Decodes.last {d : Get α} (hd : Decodes d) (g : α → β) :
    Decodes (d >>= fun a => pure (g a)) := .bind hd fun a => .done (g a)

theorem decodes_uint16 : Decodes decodeUInt16 := (Decodes.temporary 2).last _

theorem decodes_uint32 : Decodes decodeUInt32 := (Decodes.temporary 4).last _

/-- Twice four characters, in either order of the results. -/
theorem decodes_uint64 (order : ArgOrder) : Decodes (decodeUInt64 order) := by
  cases order with
  | leftFirst => exact .bind decodes_uint32 fun _ => decodes_uint32.last _
  | rightFirst => exact .bind decodes_uint32 fun _ => decodes_uint32.last _

/-- A length, and so many characters into the string. -/
theorem decodes_string (data : Bytes) : Decodes (decodeString data) :=
  .bind decodes_uint16 fun len => .characters data len.toNat

/-- The loop runs the decoder of the elements. -/
theorem decodes_elements {new : α} {d : α → Get α} (hd : Decodes (d new)) (n : Nat)
    (collec : List α) : Decodes (decodeElements new d n collec) := by
  induction n generalizing collec with
  | zero => exact .done collec
  | succ n ih => exact .bind hd fun back => ih (collec ++ [back])

/-- A count, and so many elements. -/
theorem decodes_vector {new : α} {d : α → Get α} (hd : Decodes (d new)) (collec : List α) :
    Decodes (decodeVector new d collec) :=
  .bind decodes_uint16 fun len => decodes_elements hd len.toNat collec

/-- A block of data is a count and so many characters. -/
theorem decodes_data (old : HasDataStorage) : Decodes old.decode :=
  .bind decodes_uint32 fun size => (decodes_elements .character size.toNat old.data).last _

/-! ## Codecs -/

/-- The decoder of a codec is such a program, in either order of evaluation and
    whatever it decodes into. -/
def Reading (c : Codec α) : Prop := ∀ order old, Decodes (c.get order old)

/-- Two codecs in a row. -/
theorem Reading.pair {c : Codec α} {d : Codec β} (hc : Reading c) (hd : Reading d) :
    Reading (c.pair d) :=
  fun order old => .bind (hc order old.1) fun _ => (hd order old.2).last _

theorem Reading.via {c : Codec γ} {parts : α → γ} {make : γ → α}
    {make_parts : ∀ a, make (parts a) = a} {parts_make : ∀ t, parts (make t) = t}
    (hc : Reading c) : Reading (c.via parts make make_parts parts_make) :=
  fun order old => (hc order (parts old)).last make

theorem reading_vector {c : Codec α} (hc : Reading c) (new : α) : Reading (vector c new) :=
  fun order old => decodes_vector (hc order new) old

/-- A qid is three integers. -/
theorem reading_qid : Reading qid := fun order _ =>
  .last (.bind .character fun _ => .last (.bind decodes_uint32 fun _ =>
    (decodes_uint64 order).last _) _) _

/-- **WHATEVER IS MADE OF FIELDS ONLY READS** to decode; a stat drops the length in
    front of its members. -/
theorem reading_of_consists {stats : Prop} {c : Codec α} {f : α → List Field}
    (h : Consists stats c f) : Reading c := by
  induction h with
  | uint8 => exact fun _ _ => .character
  | uint16 => exact fun _ _ => decodes_uint16
  | uint32 => exact fun _ _ => decodes_uint32
  | uint64 => exact fun order _ => decodes_uint64 order
  | qid => exact reading_qid
  | string => exact fun _ old => decodes_string old
  | names => exact reading_vector (fun _ old => decodes_string old) []
  | qids => exact reading_vector reading_qid {}
  | data => exact fun _ old => decodes_data old
  | stat _ _ ih => exact fun order old => .bind decodes_uint16 fun _ => ih order old
  | pair _ _ ihc ihd => exact ihc.pair ihd
  | via _ ih => exact ih.via

/-! ## Dispatchers -/

/-- The stream a decoder leaves, whether it returns or throws. -/
def left (result : EStateM.Result Exception (MessageStream × α) Unit) : MessageStream :=
  match result with
  | .ok () s   => s.1
  | .error _ s => s.1

/-- A new alternative is put in place without touching the stream. -/
theorem left_emplace (hold : α → β) (new : α) (decode : Decoder α) (msg : MessageStream) :
    left (emplace hold new decode msg) = left (decode (msg, new)) := by
  simp only [emplace]
  cases decode (msg, new) with
  | ok u s => rfl
  | error ex s => rfl

/-- The peek of a dispatcher is one of the stream's. -/
theorem forward_look (msg : MessageStream) : Forward msg.storage (peek msg).2.storage :=
  forward_peek msg.storage

/-- The dispatch by kind goes on from where its peek has left the stream. -/
theorem forward_variant (order : ArgOrder) (dir : MessageDirection) (msg : MessageStream)
    (old : Variant dir) :
    Forward (peek msg).2.storage (left (decodeVariant order dir (msg, old))).storage := by
  rcases hp : peek msg with ⟨shown, msg'⟩
  cases shown with
  | none =>
      simp only [decodeVariant, hp]
      exact .refl _
  | some op =>
      simp only [decodeVariant, hp]
      have hrun : ∀ kind, kind ≠ .Undefined →
          Forward msg'.storage (left (emplace (Variant.mk kind) (newHeld dir kind)
            (decodeHeld order dir kind) msg')).storage := by
        intro kind hkind
        rw [left_emplace, decodeHeld_eq order hkind]
        exact (reading_of_consists (consists_codec hkind) order _).forward msg'
      cases hc : convert ⟨op⟩ with
      | Undefined => exact .refl _
      | _ => exact hrun _ (by decide)

/-- So does the dispatch by direction. -/
theorem forward_interaction (order : ArgOrder) (msg : MessageStream) (old : Interaction) :
    Forward (peek msg).2.storage (left (decodeInteraction order (msg, old))).storage := by
  rcases hp : peek msg with ⟨shown, msg'⟩
  cases shown with
  | none =>
      simp only [decodeInteraction, hp]
      exact .refl _
  | some op =>
      simp only [decodeInteraction, hp]
      by_cases hr : isRequest ⟨op⟩ = true
      · rw [if_pos hr, left_emplace]
        exact (forward_look msg').trans (forward_variant order .Request msg' _)
      · rw [if_neg hr, left_emplace]
        exact (forward_look msg').trans (forward_variant order .Response msg' _)

/-! ## Runs of decodes -/

/-- The `decode` of a class; that of an undefined message throws at once. -/
theorem forward_held (order : ArgOrder) (msg : MessageStream) (old : BoundType dir kind) :
    Forward msg.storage (left (decodeHeld order dir kind (msg, old))).storage := by
  by_cases hk : kind = .Undefined
  · subst hk
    cases dir <;> exact .refl _
  · rw [decodeHeld_eq order hk]
    exact (reading_of_consists (consists_codec hk) order old).forward msg

/-- One decode: of an integer, a string, a list, a block of data or whatever else a
    program over the three ways to read makes of a stream; of a class, into any
    object; or by one of the dispatchers. -/
inductive Decoding where
  | program {α : Type} (d : Get α) (reads : Decodes d)
  | held (dir : MessageDirection) (kind : ConceptualOperation) (old : BoundType dir kind)
  | request (old : Request)
  | response (old : Response)
  | interaction (old : Interaction)

/-- The stream it leaves. -/
def Decoding.after (order : ArgOrder) : Decoding → MessageStream → MessageStream
  | .program d _, msg       => (d msg).2
  | .held dir kind old, msg => left (decodeHeld order dir kind (msg, old))
  | .request old, msg       => left (decodeRequest order (msg, old))
  | .response old, msg      => left (decodeResponse order (msg, old))
  | .interaction old, msg   => left (decodeInteraction order (msg, old))

/-- Each decode only reads. -/
theorem Decoding.forward (order : ArgOrder) (d : Decoding) (msg : MessageStream) :
    Forward msg.storage (d.after order msg).storage := by
  cases d with
  | program d reads => exact reads.forward msg
  | held dir kind old => exact forward_held order msg old
  | request old => exact (forward_look msg).trans (forward_variant order .Request msg old)
  | response old => exact (forward_look msg).trans (forward_variant order .Response msg old)
  | interaction old => exact (forward_look msg).trans (forward_interaction order msg old)

/-- **DECODING ONLY READS**: any decodes in a row, on any stream in any state,
    whether they return or throw, leave the contents, the put position and
    `badbit` as they were, never move the get position back and never lower a
    flag. -/
theorem decodes_only_read (order : ArgOrder) (ds : List Decoding) (msg : MessageStream) :
    Forward msg.storage (run (Decoding.after order) ds msg).storage := by
  induction ds generalizing msg with
  | nil => exact .refl _
  | cons d ds ih => exact (d.forward order msg).trans (ih _)

end KzrForward
