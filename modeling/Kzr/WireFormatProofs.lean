import Mathlib.Data.List.Basic
import Mathlib.Tactic.Common

/-! # Self-delimiting formats

    A format pairs an encoder that may refuse a value with a decoder that
    returns what it did not consume, and carries the two laws that make them
    one format: decoding an encoding followed by anything gives the value back
    and leaves exactly the rest, and whatever the decoder accepts is an
    encoding followed by the rest.  From the first law follows unique
    decodability; the second is canonicity.

    The combinators below build formats from formats — a pair, a change of
    representation, a counted list, a length-prefixed blob, a choice made by
    the first symbol — so that a composite format never proves its laws
    again.  Symbols and values are of arbitrary type. -/

namespace WireFormat

variable {σ α γ : Type}

/-- Concatenate two encodings; a refusal of either is a refusal of both. -/
def cat : Option (List σ) → Option (List σ) → Option (List σ)
  | some a, some b => some (a ++ b)
  | _, _           => none

@[simp] theorem cat_some (a b : List σ) : cat (some a) (some b) = some (a ++ b) := rfl

@[simp] theorem cat_none_left (y : Option (List σ)) : cat none y = none := rfl

/-- An encoding of two parts is one of each. -/
theorem cat_eq_some {x y : Option (List σ)} {bs : List σ} :
    cat x y = some bs ↔ ∃ a b, x = some a ∧ y = some b ∧ bs = a ++ b := by
  cases x <;> cases y <;> simp [cat, eq_comm]

theorem cat_nil (x : Option (List σ)) : cat x (some []) = x := by
  cases x <;> simp

/-- A self-delimiting format for `α` over the symbols `σ`. -/
structure Format (σ α : Type) where
  encode : α → Option (List σ)
  decode : List σ → Option (α × List σ)
  decode_encode : ∀ {a : α} {bs : List σ}, encode a = some bs →
    ∀ rest, decode (bs ++ rest) = some (a, rest)
  encode_decode : ∀ {bs : List σ} {a : α} {rest : List σ}, decode bs = some (a, rest) →
    ∃ used, encode a = some used ∧ bs = used ++ rest

/-- **UNIQUE DECODABILITY**: a stream begins with at most one encoding. -/
theorem Format.unique (f : Format σ α) {a b : α} {ea eb x y : List σ}
    (ha : f.encode a = some ea) (hb : f.encode b = some eb)
    (h : ea ++ x = eb ++ y) : a = b ∧ x = y := by
  have h1 := f.decode_encode ha x
  have h2 := f.decode_encode hb y
  rw [h, h2] at h1
  exact ⟨congrArg Prod.fst (Option.some.inj h1).symm,
    congrArg Prod.snd (Option.some.inj h1).symm⟩

/-! ## Combinators -/

/-- One symbol. -/
def symbol : Format σ σ where
  encode := fun c => some [c]
  decode := fun bs =>
    match bs with
    | []        => none
    | c :: rest => some (c, rest)
  decode_encode := by
    intro a bs h rest
    cases h
    rfl
  encode_decode := by
    intro bs a rest h
    cases bs with
    | nil => exact nomatch h
    | cons c tl =>
        cases h
        exact ⟨[a], rfl, rfl⟩

/-- First one format, then another. -/
def Format.pair (f : Format σ α) (g : Format σ γ) : Format σ (α × γ) where
  encode := fun p => cat (f.encode p.1) (g.encode p.2)
  decode := fun bs =>
    match f.decode bs with
    | none          => none
    | some (a, bs') =>
        match g.decode bs' with
        | none           => none
        | some (c, rest) => some ((a, c), rest)
  decode_encode := by
    intro p bs h rest
    obtain ⟨e1, e2, h1, h2, rfl⟩ := cat_eq_some.mp h
    rw [List.append_assoc, f.decode_encode h1]
    simp only [g.decode_encode h2]
  encode_decode := by
    intro bs p rest h
    cases hf : f.decode bs with
    | none => simp [hf] at h
    | some q =>
        obtain ⟨a, bs'⟩ := q
        cases hg : g.decode bs' with
        | none => simp [hf, hg] at h
        | some r =>
            obtain ⟨c, rest'⟩ := r
            simp only [hf, hg, Option.some.injEq, Prod.mk.injEq] at h
            obtain ⟨rfl, rfl⟩ := h
            obtain ⟨u1, h1, rfl⟩ := f.encode_decode hf
            obtain ⟨u2, h2, rfl⟩ := g.encode_decode hg
            exact ⟨u1 ++ u2, by simp [h1, h2], by rw [List.append_assoc]⟩

/-- Change the representation.  `put` must be undone by `get` everywhere, and
    `get` by `put` on what the format can encode. -/
def Format.via (f : Format σ γ) (put : α → γ) (get : γ → α)
    (get_put : ∀ a, get (put a) = a)
    (put_get : ∀ c bs, f.encode c = some bs → put (get c) = c) : Format σ α where
  encode := fun a => f.encode (put a)
  decode := fun bs => (f.decode bs).map (fun p => (get p.1, p.2))
  decode_encode := by
    intro a bs h rest
    rw [f.decode_encode h]
    simp [get_put]
  encode_decode := by
    intro bs a rest h
    obtain ⟨⟨c, rest'⟩, hc, hp⟩ := Option.map_eq_some_iff.mp h
    cases hp
    obtain ⟨used, hu, rfl⟩ := f.encode_decode hc
    exact ⟨used, by rw [put_get c used hu]; exact hu, rfl⟩

/-- Refuse the values that fail a test. -/
def Format.restrict (f : Format σ α) (p : α → Bool) : Format σ α where
  encode := fun a => if p a then f.encode a else none
  decode := fun bs =>
    match f.decode bs with
    | none           => none
    | some (a, rest) => if p a then some (a, rest) else none
  decode_encode := by
    intro a bs h rest
    by_cases hp : p a = true
    · rw [if_pos hp] at h
      simp [f.decode_encode h, hp]
    · rw [if_neg hp] at h
      exact nomatch h
  encode_decode := by
    intro bs a rest h
    cases hf : f.decode bs with
    | none => simp [hf] at h
    | some q =>
        obtain ⟨a', rest'⟩ := q
        by_cases hp : p a' = true
        · simp only [hf, hp, if_true, Option.some.injEq, Prod.mk.injEq] at h
          obtain ⟨rfl, rfl⟩ := h
          simpa [hp] using f.encode_decode hf
        · simp [hf, hp] at h

/-- Encode the elements of a list one after the other. -/
def encodeEach (e : α → Option (List σ)) : List α → Option (List σ)
  | []      => some []
  | a :: as => cat (e a) (encodeEach e as)

/-- Decode `n` elements. -/
def Format.decodeN (f : Format σ α) : Nat → List σ → Option (List α × List σ)
  | 0, bs     => some ([], bs)
  | n + 1, bs =>
      match f.decode bs with
      | none          => none
      | some (a, bs') =>
          match f.decodeN n bs' with
          | none            => none
          | some (as, rest) => some (a :: as, rest)

/-- So many elements are decoded from their encodings. -/
theorem Format.decodeN_encodeEach (f : Format σ α) :
    ∀ {as : List α} {bs : List σ}, encodeEach f.encode as = some bs →
      ∀ rest, f.decodeN as.length (bs ++ rest) = some (as, rest) := by
  intro as
  induction as with
  | nil =>
      intro bs h rest
      cases h
      rfl
  | cons a as ih =>
      intro bs h rest
      -- the rest of the first element is the encoding of the others, then `rest`
      obtain ⟨e1, e2, h1, h2, rfl⟩ := cat_eq_some.mp h
      simp only [List.length_cons, Format.decodeN]
      rw [List.append_assoc, f.decode_encode h1]
      simp only [ih h2 rest]

/-- Elements that were decoded were there, in their encodings. -/
theorem Format.encodeEach_decodeN (f : Format σ α) :
    ∀ {n : Nat} {bs : List σ} {as : List α} {rest : List σ},
      f.decodeN n bs = some (as, rest) →
      as.length = n ∧ ∃ used, encodeEach f.encode as = some used ∧ bs = used ++ rest := by
  intro n
  induction n with
  | zero =>
      intro bs as rest h
      cases h
      exact ⟨rfl, [], rfl, rfl⟩
  | succ n ih =>
      intro bs as rest h
      simp only [Format.decodeN] at h
      cases hf : f.decode bs with
      | none => simp [hf] at h
      | some q =>
          obtain ⟨a, bs'⟩ := q
          cases hn : f.decodeN n bs' with
          | none => simp [hf, hn] at h
          | some r =>
              obtain ⟨as', rest'⟩ := r
              simp only [hf, hn, Option.some.injEq, Prod.mk.injEq] at h
              obtain ⟨rfl, rfl⟩ := h
              obtain ⟨u1, h1, rfl⟩ := f.encode_decode hf
              obtain ⟨hlen, u2, h2, rfl⟩ := ih hn
              exact ⟨by rw [List.length_cons, hlen], u1 ++ u2, by simp [encodeEach, h1, h2],
                by rw [List.append_assoc]⟩

/-- A list behind its element count. -/
def Format.counted (count : Format σ Nat) (f : Format σ α) : Format σ (List α) where
  encode := fun as => cat (count.encode as.length) (encodeEach f.encode as)
  decode := fun bs =>
    match count.decode bs with
    | none          => none
    | some (n, bs') => f.decodeN n bs'
  decode_encode := by
    intro as bs h rest
    obtain ⟨e1, e2, h1, h2, rfl⟩ := cat_eq_some.mp h
    rw [List.append_assoc, count.decode_encode h1]
    exact f.decodeN_encodeEach h2 rest
  encode_decode := by
    intro bs as rest h
    cases hc : count.decode bs with
    | none => simp [hc] at h
    | some q =>
        obtain ⟨n, bs'⟩ := q
        simp only [hc] at h
        obtain ⟨u1, h1, rfl⟩ := count.encode_decode hc
        obtain ⟨hlen, u2, h2, rfl⟩ := f.encodeEach_decodeN h
        exact ⟨u1 ++ u2, by simp [hlen, h1, h2], by rw [List.append_assoc]⟩

/-- A value behind the number of symbols its own encoding takes. -/
def Format.sized (count : Format σ Nat) (f : Format σ α) : Format σ α where
  encode := fun a =>
    match f.encode a with
    | none    => none
    | some bs => cat (count.encode bs.length) (some bs)
  decode := fun bs =>
    match count.decode bs with
    | none          => none
    | some (n, bs') =>
        if n ≤ bs'.length then
          match f.decode (bs'.take n) with
          -- the block has to be used up
          | some (a, []) => some (a, bs'.drop n)
          | _            => none
        else none
  decode_encode := by
    intro a bs h rest
    cases hf : f.encode a with
    | none => simp [hf] at h
    | some e =>
        simp only [hf] at h
        obtain ⟨e1, e2, h1, h2, rfl⟩ := cat_eq_some.mp h
        cases h2
        rw [List.append_assoc, count.decode_encode h1]
        have hd := f.decode_encode hf []
        rw [List.append_nil] at hd
        simp [hd]
  encode_decode := by
    intro bs a rest h
    cases hc : count.decode bs with
    | none => simp [hc] at h
    | some q =>
        obtain ⟨n, bs'⟩ := q
        simp only [hc] at h
        by_cases hn : n ≤ bs'.length
        · rw [if_pos hn] at h
          split at h
          · rename_i a' hd
            simp only [Option.some.injEq, Prod.mk.injEq] at h
            obtain ⟨rfl, rfl⟩ := h
            obtain ⟨u1, h1, rfl⟩ := count.encode_decode hc
            obtain ⟨u2, h2, h3⟩ := f.encode_decode hd
            rw [List.append_nil] at h3
            have hlen : u2.length = n := by
              rw [← h3, List.length_take, Nat.min_eq_left hn]
            refine ⟨u1 ++ u2, by simp [h2, hlen, h1], ?_⟩
            rw [← h3, List.append_assoc, List.take_append_drop]
          · exact nomatch h
        · rw [if_neg hn] at h
          exact nomatch h

/-- Pick the format by the first symbol.  `pick` must offer, under each symbol,
    only values that carry this symbol as their tag and begin with it. -/
def Format.dispatch (tag : α → σ) (pick : σ → Option (Format σ α))
    (agrees : ∀ {t f a bs}, pick t = some f → f.encode a = some bs →
      tag a = t ∧ bs.head? = some t) : Format σ α where
  encode := fun a =>
    match pick (tag a) with
    | none   => none
    | some f => f.encode a
  decode := fun bs =>
    match bs.head? with
    | none   => none
    | some t =>
        match pick t with
        | none   => none
        | some f => f.decode bs
  decode_encode := by
    intro a bs h rest
    cases hp : pick (tag a) with
    | none => simp [hp] at h
    | some f =>
        simp only [hp] at h
        have hd := (agrees hp h).2
        have hd' : (bs ++ rest).head? = some (tag a) := by
          rw [List.head?_append, hd]
          rfl
        simp only [hd', hp]
        exact f.decode_encode h rest
  encode_decode := by
    intro bs a rest h
    cases ht : bs.head? with
    | none => simp [ht] at h
    | some t =>
        cases hp : pick t with
        | none => simp [ht, hp] at h
        | some f =>
            simp only [ht, hp] at h
            obtain ⟨used, hu, hbs⟩ := f.encode_decode h
            refine ⟨used, ?_, hbs⟩
            -- the tag of what was decoded picks the same format again
            rw [(agrees hp hu).1, hp]
            exact hu

/-- Formats of the alternatives of a union: `inj` builds the alternative and
    `proj` recognises it. -/
def Format.alternative (f : Format σ γ) (inj : γ → α) (proj : α → Option γ)
    (proj_inj : ∀ c, proj (inj c) = some c)
    (inj_proj : ∀ {a c}, proj a = some c → a = inj c) : Format σ α where
  encode := fun a =>
    match proj a with
    | none   => none
    | some c => f.encode c
  decode := fun bs => (f.decode bs).map (fun p => (inj p.1, p.2))
  decode_encode := by
    intro a bs h rest
    cases hp : proj a with
    | none => simp [hp] at h
    | some c =>
        simp only [hp] at h
        rw [f.decode_encode h, inj_proj hp]
        rfl
  encode_decode := by
    intro bs a rest h
    obtain ⟨⟨c, rest'⟩, hc, hq⟩ := Option.map_eq_some_iff.mp h
    cases hq
    obtain ⟨used, hu, rfl⟩ := f.encode_decode hc
    exact ⟨used, by simp [proj_inj, hu], rfl⟩

/-! ## The language of a format -/

/-- The symbols are the encoding of some value. -/
def Format.Spelled (f : Format σ α) (bs : List σ) : Prop := ∃ a, f.encode a = some bs

/-- The format takes any `k` symbols, and behind them what satisfies `P`. -/
def Format.Opens (f : Format σ α) (k : Nat) (P : List σ → Prop) : Prop :=
  ∀ bs, f.Spelled bs ↔ k ≤ bs.length ∧ P (bs.drop k)

/-- All strings of `k` symbols are encodings, and no others. -/
def Format.Wide (f : Format σ α) (k : Nat) : Prop := f.Opens k (· = [])

/-- A format is `k` wide when it spells all that is `k` long, and nothing else. -/
theorem Format.wide_iff {f : Format σ α} {k : Nat} :
    f.Wide k ↔ ∀ bs, f.Spelled bs ↔ bs.length = k := by
  have hlen : ∀ bs : List σ, (k ≤ bs.length ∧ bs.drop k = []) ↔ bs.length = k := by
    intro bs
    rw [List.drop_eq_nil_iff]
    omega
  exact forall_congr' fun bs => iff_congr Iff.rfl (hlen bs)

theorem Format.spelled_pair (f : Format σ α) (g : Format σ γ) (bs : List σ) :
    (f.pair g).Spelled bs ↔ ∃ u v, f.Spelled u ∧ g.Spelled v ∧ bs = u ++ v := by
  constructor
  · rintro ⟨p, h⟩
    obtain ⟨u, v, hu, hv, rfl⟩ := cat_eq_some.mp h
    exact ⟨u, v, ⟨p.1, hu⟩, ⟨p.2, hv⟩, rfl⟩
  · rintro ⟨u, v, ⟨a, hu⟩, ⟨c, hv⟩, rfl⟩
    exact ⟨(a, c), cat_eq_some.mpr ⟨u, v, hu, hv, rfl⟩⟩

/-- Another representation does not change the language. -/
theorem Format.spelled_via {f : Format σ γ} {put : α → γ} {get : γ → α}
    {get_put : ∀ a, get (put a) = a} {put_get : ∀ c bs, f.encode c = some bs → put (get c) = c}
    (bs : List σ) : (f.via put get get_put put_get).Spelled bs ↔ f.Spelled bs := by
  constructor
  · rintro ⟨a, h⟩
    exact ⟨put a, h⟩
  · rintro ⟨c, h⟩
    refine ⟨get c, ?_⟩
    show f.encode (put (get c)) = some bs
    rw [put_get c bs h, h]

theorem Format.Opens.via {f : Format σ γ} {k : Nat} {P : List σ → Prop} {put : α → γ}
    {get : γ → α} {get_put : ∀ a, get (put a) = a}
    {put_get : ∀ c bs, f.encode c = some bs → put (get c) = c} (h : f.Opens k P) :
    (f.via put get get_put put_get).Opens k P :=
  fun bs => (spelled_via bs).trans (h bs)

theorem Format.opens_zero {f : Format σ α} {P : List σ → Prop} (h : ∀ bs, f.Spelled bs ↔ P bs) :
    f.Opens 0 P := by
  intro bs
  rw [h bs, List.drop_zero, and_iff_right (Nat.zero_le _)]

/-- Symbols of a fixed width in front move the rest by that width. -/
theorem Format.Wide.opens {f : Format σ α} {g : Format σ γ} {j k : Nat} {P : List σ → Prop}
    (hf : f.Wide j) (hg : g.Opens k P) : (f.pair g).Opens (j + k) P := by
  intro bs
  rw [spelled_pair]
  constructor
  · rintro ⟨u, v, hu, hv, rfl⟩
    obtain ⟨hk, hP⟩ := (hg v).mp hv
    have hj : u.length = j := (wide_iff.mp hf u).mp hu
    refine ⟨by rw [List.length_append]; omega, ?_⟩
    rwa [← hj, List.drop_append, List.drop_eq_nil_of_le (Nat.le_add_right _ _), List.nil_append,
      Nat.add_sub_cancel_left]
  · rintro ⟨hle, hP⟩
    refine ⟨bs.take j, bs.drop j, (wide_iff.mp hf _).mpr ?_, (hg _).mpr ⟨?_, ?_⟩,
      (List.take_append_drop j bs).symm⟩
    · rw [List.length_take]
      omega
    · rw [List.length_drop]
      omega
    · rwa [List.drop_drop]

end WireFormat
