import Kzr.AcceptanceProofs
import Kzr.RoundTripProofs

/-! # Messages that are passed on

    A machine that decodes an interaction and encodes what it got sends on
    something else than was sent to it: the strings have lost their characters,
    and where the halves of a 64-bit integer are read in the other order they have
    changed places.

    Along a chain of machines, each built with either order, nothing else happens.
    The first one drops the strings; from then on the interaction only changes with
    the halves, so what arrives depends on whether an even or an odd number of the
    machines read them the other way round.  None of them refuses it, and it does
    not get longer. -/

namespace KzrRelay

open WireFormat LittleEndian KzrOperation KzrMessageStream KzrPrimitive KzrCodec KzrMessage
open KzrMessageCodec KzrInteraction KzrInteractionCodec KzrAcceptance
open KzrRoundTrip (storeAt_nil heldHeader_received)
open KzrField (Field Consists fields headerFields memberFields consists_codec)

variable {α β γ : Type} {dir : MessageDirection} {kind : ConceptualOperation}

/-! ## Orders one after the other -/

/-- Two exchanges of the halves cancel. -/
def join : ArgOrder → ArgOrder → ArgOrder
  | .leftFirst, order       => order
  | .rightFirst, .leftFirst  => .rightFirst
  | .rightFirst, .rightFirst => .leftFirst

/-- What is received into `old` of something received into `old` before is what is
    received at once under both orders; and it is no longer. -/
structure Settles (c : Codec α) (old : α) : Prop where
  joins   : ∀ order order' a, c.received order old (c.received order' old a)
    = c.received (join order order') old a
  shrinks : ∀ order {a bs}, c.format.encode a = some bs →
    ∃ bs', c.format.encode (c.received order old a) = some bs' ∧ bs'.length ≤ bs.length

theorem Settles.pair {c : Codec α} {d : Codec β} {old : α × β} (hc : Settles c old.1)
    (hd : Settles d old.2) : Settles (c.pair d) old where
  joins := fun order order' p => Prod.ext (hc.joins order order' p.1) (hd.joins order order' p.2)
  shrinks := by
    intro order p bs h
    obtain ⟨as, cs, has, hcs, rfl⟩ := cat_eq_some.mp h
    obtain ⟨as', has', hle⟩ := hc.shrinks order has
    obtain ⟨cs', hcs', hle'⟩ := hd.shrinks order hcs
    refine ⟨as' ++ cs', ?_, ?_⟩
    · show cat (c.format.encode (c.received order old.1 p.1))
        (d.format.encode (d.received order old.2 p.2)) = _
      rw [has', hcs', cat_some]
    · rw [List.length_append, List.length_append]
      omega

theorem Settles.via {c : Codec γ} {fields : α → γ} {make : γ → α}
    {make_fields : ∀ a, make (fields a) = a} {fields_make : ∀ t, fields (make t) = t}
    {old : α} (hc : Settles c (fields old)) :
    Settles (c.via fields make make_fields fields_make) old where
  joins := by
    intro order order' a
    show make (c.received order (fields old) (fields (make _))) = _
    rw [fields_make, hc.joins]
    rfl
  shrinks := by
    intro order a bs h
    obtain ⟨bs', hbs', hle⟩ := hc.shrinks order h
    refine ⟨bs', ?_, hle⟩
    show c.format.encode (fields (make _)) = some bs'
    rw [fields_make, hbs']

/-- The field holds nothing that a decode would keep. -/
def fresh : Field → Bool
  | .integer _ => true
  | .qid _     => true
  | .text s    => s.isEmpty
  | .names l   => l.isEmpty
  | .qids l    => l.isEmpty
  | .data s    => s.isEmpty
  | .stat m    => m.name.isEmpty && m.uid.isEmpty && m.gid.isEmpty && m.muid.isEmpty

/-- What the next machine gets that reads the encoding of `i` in this order. -/
def hop (indeterminate : Nat → UInt8) (i : Interaction) (order : ArgOrder) :
    Except Exception Interaction :=
  match encodeInteraction i (.new indeterminate) with
  | .error ex _ => .error ex
  | .ok () msg  =>
      match decodeInteraction order (msg, .new) with
      | .error ex _    => .error ex
      | .ok () (_, i') => .ok i'

end KzrRelay
