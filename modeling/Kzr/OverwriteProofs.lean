import Kzr.FieldProofs

/-! # Decoding into an object that has been used

    The dispatchers decode into a new alternative, but every class can be
    decoded into directly.  Integers and qids are replaced then.  Strings keep
    their size and whatever lies behind the characters received; name lists,
    qid lists and data blocks keep all they hold and grow.

    `leftovers` collects what a decode keeps.  Two objects end up equal exactly
    when they agree on it. -/

namespace KzrOverwrite

open WireFormat LittleEndian KzrOperation KzrMessageStream KzrPrimitive KzrCodec KzrMessage
open KzrMessageCodec KzrInteraction KzrInteractionCodec
open KzrField (Field Consists fields headerFields memberFields consists_codec)

variable {α β γ κ κ' : Type} {dir : MessageDirection} {kind : ConceptualOperation}

/-! ## What a decode keeps -/

/-- Of a string that `s` is decoded into: its size, and what lies behind `s`. -/
def kept (data s : Bytes) : Nat × Bytes := (data.length, data.drop s.length)

/-- The strings of a message, list elements left out. -/
def heldTexts : (dir : MessageDirection) → (kind : ConceptualOperation) →
    BoundType dir kind → List Bytes
  | .Request, .Version  => fun m : VersionRequest => [m.version]
  | .Request, .Auth     => fun m : AuthenticationRequest => [m.uname, m.aname]
  | .Request, .Attach   => fun m : AttachRequest => [m.uname, m.aname]
  | .Request, .Create   => fun m : CreateRequest => [m.name]
  | .Request, .WStat    => fun m : WStatRequest =>
      [m.stat.name, m.stat.uid, m.stat.gid, m.stat.muid]
  | .Response, .Version => fun m : VersionResponse => [m.version]
  | .Response, .Error   => fun m : ErrorResponse => [m.ename]
  | .Response, .Stat    => fun m : StatResponse => [m.data]
  | _, _                => fun _ => []

/-- The name list, the qid list and the data block of a message. -/
def heldVectors : (dir : MessageDirection) → (kind : ConceptualOperation) →
    BoundType dir kind → List Bytes × List Qid × Bytes
  | .Request, .Walk  => fun m : WalkRequest => (m.wname, [], [])
  | .Request, .Write => fun m : WriteRequest => ([], [], m.data)
  | .Response, .Walk => fun m : WalkResponse => ([], m.wqid, [])
  | .Response, .Read => fun m : ReadResponse => ([], [], m.data)
  | _, _             => fun _ => ([], [], [])

/-- What of the object `old` a decode of the message `m` keeps. -/
def leftovers (dir : MessageDirection) (kind : ConceptualOperation)
    (m old : BoundType dir kind) : List (Nat × Bytes) × List Bytes × List Qid × Bytes :=
  (List.zipWith kept (heldTexts dir kind old) (heldTexts dir kind m), heldVectors dir kind old)

theorem length_storeAt (data got : Bytes) : (storeAt data got).length = data.length := by
  simp only [storeAt, List.length_append, List.length_take, List.length_drop]
  omega

/-- Two strings end up equal exactly when the same of each is kept. -/
theorem storeAt_eq_iff {a b s : Bytes} : storeAt a s = storeAt b s ↔ kept a s = kept b s := by
  constructor
  · intro h
    have hlen : a.length = b.length := by
      rw [← length_storeAt a s, h, length_storeAt]
    rw [storeAt, storeAt, hlen] at h
    rw [kept, kept, hlen, List.append_cancel_left h]
  · intro h
    have hlen : a.length = b.length := congrArg Prod.fst h
    have hdrop : a.drop s.length = b.drop s.length := congrArg Prod.snd h
    rw [storeAt, storeAt, hlen, hdrop]

/-! ## Codecs and what they keep -/

/-- Decoding `a` into two objects gives equal ones exactly when they agree on
    `k a`. -/
def Keeps (c : Codec α) (k : α → α → κ) : Prop :=
  ∀ order old old' a, c.received order old a = c.received order old' a ↔ k a old = k a old'

theorem Keeps.congr {c : Codec α} {k : α → α → κ} {l : α → α → κ'} (hc : Keeps c k)
    (h : ∀ a old old', k a old = k a old' ↔ l a old = l a old') : Keeps c l :=
  fun order old old' a => (hc order old old' a).trans (h a old old')

/-- A string keeps what the new one does not reach. -/
theorem keeps_string : Keeps string (fun s old => kept old s) := fun _ _ _ _ => storeAt_eq_iff

/-- A vector keeps everything. -/
theorem keeps_vector (c : Codec α) (new : α) : Keeps (vector c new) (fun _ old => old) :=
  fun _ _ _ _ => List.append_left_inj _

/-- A data block keeps all its bytes. -/
theorem keeps_hasData : Keeps hasData (fun _ old => old.data) := by
  intro order old old' m
  show (⟨old.data ++ m.data⟩ : HasDataStorage) = ⟨old'.data ++ m.data⟩ ↔ old.data = old'.data
  rw [HasDataStorage.mk.injEq, List.append_left_inj]

theorem Keeps.pair {c : Codec α} {d : Codec β} {k : α → α → κ} {l : β → β → κ'}
    (hc : Keeps c k) (hd : Keeps d l) :
    Keeps (c.pair d) (fun p old => (k p.1 old.1, l p.2 old.2)) := by
  intro order old old' p
  have h := and_congr (hc order old.1 old'.1 p.1) (hd order old.2 old'.2 p.2)
  rw [← Prod.mk.injEq, ← Prod.mk.injEq] at h
  exact h

theorem Keeps.via {c : Codec γ} {k : γ → γ → κ} {parts : α → γ} {make : γ → α}
    {make_parts : ∀ a, make (parts a) = a} {parts_make : ∀ t, parts (make t) = t}
    (hc : Keeps c k) :
    Keeps (c.via parts make make_parts parts_make)
      (fun a old => k (parts a) (parts old)) := by
  intro order old old' a
  refine Iff.trans ?_ (hc order (parts old) (parts old') (parts a))
  constructor
  · intro h
    have hparts := congrArg parts h
    rwa [Codec.via, parts_make, parts_make] at hparts
  · exact congrArg make

/-! ## What is kept of the fields -/

/-- What is kept of one field. -/
inductive Leftover where
  | nothing
  | text (k : Nat × Bytes)
  | names (l : List Bytes)
  | qids (l : List Qid)
  | data (s : Bytes)
  | stat (name uid gid muid : Nat × Bytes)

/-- What a decode of the first field keeps of the second. -/
def leftover : Field → Field → Leftover
  | .text s, .text old   => .text (kept old s)
  | .names _, .names old => .names old
  | .qids _, .qids old   => .qids old
  | .data _, .data old   => .data old
  | .stat m, .stat old   =>
      .stat (kept old.name m.name) (kept old.uid m.uid) (kept old.gid m.gid) (kept old.muid m.muid)
  | _, _                 => .nothing

/-- A codec of one field. -/
theorem Keeps.field {c : Codec α} {k : α → α → κ} (hc : Keeps c k) {x : α → Field}
    (h : ∀ a old old', k a old = k a old' ↔ leftover (x a) (x old) = leftover (x a) (x old')) :
    Keeps c (fun a old => List.zipWith leftover [x a] [x old]) :=
  hc.congr fun a old old' => (h a old old').trans (List.singleton_inj).symm

/-- However a class is filled, it has as many fields. -/
theorem length_of_consists {stats : Prop} {c : Codec α} {f : α → List Field}
    (h : Consists stats c f) : ∀ a b, (f a).length = (f b).length := by
  induction h with
  | pair _ _ ihc ihd =>
      intro p q
      rw [List.length_append, List.length_append, ihc p.1 q.1, ihd p.2 q.2]
  | via _ ih => exact fun a b => ih _ _
  | _ => exact fun _ _ => rfl

/-- **FIELD BY FIELD**: two objects decode the same to equal ones exactly when the
    same of each field is kept. -/
theorem keeps_of_consists {stats : Prop} {c : Codec α} {f : α → List Field}
    (h : Consists stats c f) : Keeps c fun a old => List.zipWith leftover (f a) (f old) := by
  induction h with
  | uint8 => exact fun _ _ _ _ => iff_of_true rfl rfl
  | uint16 => exact fun _ _ _ _ => iff_of_true rfl rfl
  | uint32 => exact fun _ _ _ _ => iff_of_true rfl rfl
  | uint64 => exact fun _ _ _ _ => iff_of_true rfl rfl
  | qid => exact fun _ _ _ _ => iff_of_true rfl rfl
  | string => exact keeps_string.field fun s old old' => by simp [leftover]
  | names => exact (keeps_vector _ _).field fun l old old' => by simp [leftover]
  | qids => exact (keeps_vector _ _).field fun l old old' => by simp [leftover]
  | data => exact keeps_hasData.field fun m old old' => by simp [leftover]
  | stat _ _ ih =>
      have hmembers : Keeps stat _ := ih
      exact hmembers.field fun m old old' => by simp [memberFields, leftover]
  | @pair α β c d f g hc hd ihc ihd =>
      refine (ihc.pair ihd).congr fun p old old' => ?_
      have hlen : ∀ a, (f p.1).length = (f a).length := length_of_consists hc p.1
      rw [Prod.mk.injEq, List.zipWith_append (hlen old.1), List.zipWith_append (hlen old'.1)]
      constructor
      · rintro ⟨hl, hr⟩
        rw [hl, hr]
      · intro heq
        refine List.append_inj heq ?_
        rw [List.length_zipWith, List.length_zipWith, ← hlen old.1, ← hlen old'.1]
  | via _ ih => exact ih.via

/-! ## What each class keeps -/

/-- What is kept of the fields, as `leftovers` has it. -/
def collect : List Leftover → List (Nat × Bytes) × List Bytes × List Qid × Bytes
  | []                         => ([], [], [], [])
  | .nothing :: ls             => collect ls
  | .text k :: ls              => (k :: (collect ls).1, (collect ls).2)
  | .names l :: ls             => ((collect ls).1, l, (collect ls).2.2)
  | .qids l :: ls              => ((collect ls).1, (collect ls).2.1, l, (collect ls).2.2.2)
  | .data s :: ls              => ((collect ls).1, (collect ls).2.1, (collect ls).2.2.1, s)
  | .stat k₁ k₂ k₃ k₄ :: ls    => (k₁ :: k₂ :: k₃ :: k₄ :: (collect ls).1, (collect ls).2)

/-- And handed out to the fields again. -/
def spread : List Field → List (Nat × Bytes) × List Bytes × List Qid × Bytes → List Leftover
  | [], _                                          => []
  | .text _ :: fs, (k :: ks, v)                    => .text k :: spread fs (ks, v)
  | .names _ :: fs, t                              => .names t.2.1 :: spread fs t
  | .qids _ :: fs, t                               => .qids t.2.2.1 :: spread fs t
  | .data _ :: fs, t                               => .data t.2.2.2 :: spread fs t
  | .stat _ :: fs, (k₁ :: k₂ :: k₃ :: k₄ :: ks, v) => .stat k₁ k₂ k₃ k₄ :: spread fs (ks, v)
  | _ :: fs, t                                     => .nothing :: spread fs t

/-- What is left over of the fields is what is left over of the message. -/
theorem collect_fields (m old : BoundType dir kind) :
    collect (List.zipWith leftover (fields dir kind m) (fields dir kind old))
      = leftovers dir kind m old := by
  cases dir <;> cases kind <;> rfl

theorem spread_leftovers (m old : BoundType dir kind) :
    spread (fields dir kind m) (leftovers dir kind m old)
      = List.zipWith leftover (fields dir kind m) (fields dir kind old) := by
  cases dir <;> cases kind <;> rfl

/-- Nothing is kept of the header. -/
theorem leftover_header (h h' : MessageHeader) (fs fs' : List Field) :
    List.zipWith leftover (headerFields h ++ fs) (headerFields h' ++ fs')
      = .nothing :: .nothing :: List.zipWith leftover fs fs' := rfl

/-- **WHAT DEPENDS ON THE TARGET**: two objects decode the same message to equal
    ones exactly when the decode keeps the same of them. -/
theorem keeps_codec (hk : kind ≠ .Undefined) :
    Keeps (codec dir kind hk).toCodec (leftovers dir kind) := by
  refine (keeps_of_consists (consists_codec hk)).congr fun m old old' => ?_
  rw [leftover_header, leftover_header, List.cons_inj_right, List.cons_inj_right]
  constructor
  · intro h
    rw [← collect_fields m old, h, collect_fields]
  · intro h
    rw [← spread_leftovers m old, h, spread_leftovers]

/-! ## Two decodes of one stream -/

/-- **DECODING INTO TWO OBJECTS** gives equal messages exactly when the decode
    keeps the same of both. -/
theorem decode_overwrites_iff (order : ArgOrder) {held : BoundType dir kind}
    {indeterminate : Nat → UInt8} {sent msg : MessageStream} {rest : Bytes}
    (henc : encodeHeld dir kind held (.new indeterminate) = .ok () sent)
    (hg : msg.good = true) (hu : msg.unread = sent.str ++ rest) (a b : BoundType dir kind) :
    (∃ v sa sb, decodeHeld order dir kind (msg, a) = .ok () (sa, v)
        ∧ decodeHeld order dir kind (msg, b) = .ok () (sb, v))
      ↔ leftovers dir kind held a = leftovers dir kind held b := by
  obtain ⟨hk, bs, hbs, rfl⟩ := encodeHeld_ok (writable_new indeterminate) henc
  have hread : ∀ old, decodeHeld order dir kind (msg, old)
      = .ok () (msg.advance bs.length, (codec dir kind hk).received order old held) := by
    intro old
    rw [decodeHeld_eq order hk, (codec dir kind hk).reads order old held bs rest msg hbs hg hu]
  rw [← keeps_codec hk order a b held]
  constructor
  · rintro ⟨v, sa, sb, ha, hb⟩
    rw [hread] at ha hb
    cases ha
    injection hb with hunit hpair
    exact (congrArg Prod.snd hpair).symm
  · intro h
    exact ⟨_, _, _, hread a, by rw [hread b, h]⟩

/-- Two used error messages of the same size, alike behind the one character that
    is sent. -/
theorem decode_overwrites_error :
    let held : ErrorResponse := { ename := [9] }
    let a : ErrorResponse := { ename := [1, 2] }
    let b : ErrorResponse := { ename := [3, 2] }
    ∃ sent, encodeHeld .Response .Error held (.new fun _ => 0) = .ok () sent
      ∧ ∃ v sa sb, decodeHeld .leftFirst .Response .Error (sent, a) = .ok () (sa, v)
          ∧ decodeHeld .leftFirst .Response .Error (sent, b) = .ok () (sb, v) :=
  ⟨_, rfl, (@decode_overwrites_iff .Response .Error .leftFirst
    ({ ename := [9] } : ErrorResponse) (fun _ => 0) _ _ [] rfl rfl rfl
    ({ ename := [1, 2] } : ErrorResponse) ({ ename := [3, 2] } : ErrorResponse)).mpr rfl⟩

/-- Decoded a second time into the same object, the data of a read response is
    there twice. -/
theorem decode_read_twice :
    ∃ sent, encodeHeld .Response .Read ({ data := [7] } : ReadResponse) (.new fun _ => 0)
        = .ok () sent
      ∧ ∃ s v, decodeHeld .leftFirst .Response .Read (sent, ({} : ReadResponse)) = .ok () (s, v)
        ∧ ¬ ∃ w sa sb, decodeHeld .leftFirst .Response .Read (sent, ({} : ReadResponse))
              = .ok () (sa, w)
            ∧ decodeHeld .leftFirst .Response .Read (sent, v) = .ok () (sb, w) := by
  refine ⟨_, rfl, _, _, rfl, ?_⟩
  rintro ⟨w, sa, sb, hfirst, hsecond⟩
  cases hfirst
  injection hsecond with hunit hpair
  have hdata : ([7, 7] : Bytes) = [7] :=
    congrArg (fun s : MessageStream × ReadResponse => s.2.data) hpair
  exact nomatch hdata

end KzrOverwrite
