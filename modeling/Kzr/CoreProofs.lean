import Kzr.BlendProofs

/-! # Bit fields

    `decodeBits` reads the field of a word that a mask and a shift describe,
    `encodeBits` writes it.  Both are templates over an unsigned type `T`, here
    the words of an arbitrary width, and over a type `R` for the values of the
    field, of which they use the conversions from and to words.

    The operators compute on promoted operands: a type narrower than `int`
    becomes an `int` first.  Narrowed again, the result is the one the words
    themselves would have given, a blend under the mask; the laws of a field
    are the laws of blends.

    A shift is meant to be below the width of `T`.  From the promoted width on,
    where the language says nothing, it comes out here as a shift to zero. -/

namespace KzrCore

open Blending

variable {w : Nat} {R R' : Type}

/-- `static_cast` from one type to another. -/
class StaticCast (A B : Type) where
  staticCast : A → B

export StaticCast (staticCast)

/-- Between unsigned types the value is kept or reduced. -/
instance staticCastUnsigned (a b : Nat) : StaticCast (BitVec a) (BitVec b) :=
  ⟨BitVec.setWidth b⟩

/-- The width the operators compute in: that of `int` at least. -/
def promoted (w : Nat) : Nat := max w 32

def promote (x : BitVec w) : BitVec (promoted w) := x.setWidth (promoted w)

/-- `(value & mask) >> shift`.  A promoted operand is not negative. -/
def maskedBits (value mask shift : BitVec w) : BitVec (promoted w) :=
  (promote value &&& promote mask) >>> shift.toNat

/-- `decodeBits`; the mask and the shift may be template arguments as well. -/
def decodeBits [StaticCast (BitVec (promoted w)) R] (value mask : BitVec w)
    (shift : BitVec w := 0) : R :=
  staticCast (maskedBits value mask shift)

/-- `encodeBits`; the mask and the shift may be template arguments as well. -/
def encodeBits [StaticCast R (BitVec w)] (value : BitVec w) (insert : R) (mask : BitVec w)
    (shift : BitVec w := 0) : BitVec w :=
  staticCast ((promote value &&& ~~~promote mask)
    ||| ((promote (staticCast insert : BitVec w) <<< shift.toNat) &&& promote mask))

/-! ## Promotion makes no difference -/

theorem le_promoted (w : Nat) : w ≤ promoted w := Nat.le_max_left w 32

/-- A promoted word, narrowed, is the word. -/
theorem narrow_promote (x : BitVec w) : (promote x).setWidth w = x := by
  rw [promote, BitVec.setWidth_setWidth_of_le x (le_promoted w), BitVec.setWidth_eq]

/-- It has the same bits, and zeros above them. -/
@[simp] theorem getLsbD_promote (x : BitVec w) (k : Nat) :
    (promote x).getLsbD k = x.getLsbD k := by
  rw [promote, BitVec.getLsbD_setWidth]
  by_cases hk : k < promoted w
  · rw [decide_eq_true hk, Bool.true_and]
  · rw [decide_eq_false hk, Bool.false_and]
    exact (BitVec.getLsbD_of_ge x k (Nat.le_trans (le_promoted w) (Nat.not_lt.mp hk))).symm

theorem promote_and (x y : BitVec w) : promote (x &&& y) = promote x &&& promote y :=
  BitVec.setWidth_and

/-- Bits pushed out of the word are kept in the promoted one, where the mask has
    zeros. -/
theorem promote_shiftLeft_and (x mask : BitVec w) (s : Nat) :
    (promote x <<< s) &&& promote mask = promote ((x <<< s) &&& mask) := by
  apply BitVec.eq_of_getLsbD_eq
  intro k hk
  rw [getLsbD_promote, BitVec.getLsbD_and, BitVec.getLsbD_and, BitVec.getLsbD_shiftLeft,
    BitVec.getLsbD_shiftLeft, getLsbD_promote, getLsbD_promote]
  by_cases hw : k < w
  · rw [decide_eq_true hk, decide_eq_true hw]
  · rw [BitVec.getLsbD_of_ge mask k (Nat.not_lt.mp hw), Bool.and_false, Bool.and_false]

theorem maskedBits_eq (value mask shift : BitVec w) :
    maskedBits value mask shift = promote ((value &&& mask) >>> shift.toNat) := by
  apply BitVec.eq_of_getLsbD_eq
  intro k _
  simp only [maskedBits, getLsbD_promote, BitVec.getLsbD_ushiftRight, BitVec.getLsbD_and]

/-- **ENCODING IS BLENDING** the shifted insert in. -/
theorem encodeBits_eq [StaticCast R (BitVec w)] (value mask shift : BitVec w) (insert : R) :
    encodeBits value insert mask shift
      = blend mask value ((staticCast insert : BitVec w) <<< shift.toNat) := by
  show BitVec.setWidth w (_ ||| _) = _
  rw [promote_shiftLeft_and, BitVec.setWidth_or, BitVec.setWidth_and,
    BitVec.setWidth_not (le_promoted w), narrow_promote, narrow_promote, narrow_promote]
  rfl

/-! ## The laws of a field -/

/-- What is read after a write. -/
theorem maskedBits_encodeBits [StaticCast R (BitVec w)] (value mask shift : BitVec w)
    (insert : R) :
    maskedBits (encodeBits value insert mask shift) mask shift
      = ((promote (staticCast insert : BitVec w) <<< shift.toNat) &&& promote mask)
          >>> shift.toNat := by
  rw [maskedBits, encodeBits_eq, ← promote_and, blend_and_mask, promote_shiftLeft_and]

/-- A write stays inside the mask. -/
theorem getLsbD_encodeBits_outside [StaticCast R (BitVec w)] {mask : BitVec w} {k : Nat}
    (h : mask.getLsbD k = false) (value shift : BitVec w) (insert : R) :
    (encodeBits value insert mask shift).getLsbD k = value.getLsbD k := by
  rw [encodeBits_eq, getLsbD_blend, h]
  rfl

/-- `R` holds what is read of the field: converted to it and back, the bits are
    what they are without the detour. -/
def LosesNoBits (R : Type) [StaticCast (BitVec (promoted w)) R] [StaticCast R (BitVec w)]
    (value mask shift : BitVec w) : Prop :=
  (staticCast (decodeBits value mask shift : R) : BitVec w)
    = staticCast (maskedBits value mask shift)

/-- Writing back what has been read. -/
theorem encodeBits_decodeBits [StaticCast (BitVec (promoted w)) R] [StaticCast R (BitVec w)]
    {value mask shift : BitVec w} (hmask : ∀ k < shift.toNat, mask.getLsbD k = false)
    (hR : LosesNoBits R value mask shift) :
    encodeBits value (decodeBits value mask shift : R) mask shift = value := by
  have hfield : (staticCast (decodeBits value mask shift : R) : BitVec w)
      = (value &&& mask) >>> shift.toNat := by
    rw [hR, maskedBits_eq]
    exact narrow_promote _
  have hbits : ∀ k < shift.toNat, (value &&& mask).getLsbD k = false := by
    intro k hk
    rw [BitVec.getLsbD_and, hmask k hk, Bool.and_false]
  rw [encodeBits_eq, hfield, shiftRight_shiftLeft hbits]
  apply blend_eq_self
  rw [BitVec.and_assoc, BitVec.and_self]

/-- Of two writes to a field the second counts. -/
theorem encodeBits_encodeBits [StaticCast R (BitVec w)] [StaticCast R' (BitVec w)]
    (value mask shift : BitVec w) (i : R) (j : R') :
    encodeBits (encodeBits value i mask shift) j mask shift
      = encodeBits value j mask shift := by
  rw [encodeBits_eq, encodeBits_eq, encodeBits_eq, blend_blend]

/-- Writes to disjoint fields commute. -/
theorem encodeBits_comm [StaticCast R (BitVec w)] [StaticCast R' (BitVec w)]
    {mask mask' : BitVec w} (h : mask &&& mask' = 0#w) (value shift shift' : BitVec w)
    (i : R) (j : R') :
    encodeBits (encodeBits value i mask shift) j mask' shift'
      = encodeBits (encodeBits value j mask' shift') i mask shift := by
  rw [encodeBits_eq, encodeBits_eq, encodeBits_eq, encodeBits_eq, blend_comm h]

/-- **A BIT FIELD IS A LENS** on the words, for every width, mask, shift and
    insert. -/
theorem bit_field_laws [StaticCast (BitVec (promoted w)) R] [StaticCast R (BitVec w)]
    [StaticCast R' (BitVec w)] (value mask shift : BitVec w) (i : R) (j : R') :
    let field := ((promote (staticCast i : BitVec w) <<< shift.toNat) &&& promote mask)
      >>> shift.toNat
    (maskedBits (encodeBits value i mask shift) mask shift = field
        ∧ (decodeBits (encodeBits value i mask shift) mask shift : R) = staticCast field)
      ∧ (∀ k, mask.getLsbD k = false →
        (encodeBits value i mask shift).getLsbD k = value.getLsbD k)
      ∧ ((∀ k < shift.toNat, mask.getLsbD k = false) → LosesNoBits R value mask shift →
        encodeBits value (decodeBits value mask shift : R) mask shift = value)
      ∧ encodeBits (encodeBits value i mask shift) j mask shift = encodeBits value j mask shift
      ∧ ∀ mask' shift', mask &&& mask' = 0#w →
        encodeBits (encodeBits value i mask shift) j mask' shift'
          = encodeBits (encodeBits value j mask' shift') i mask shift := by
  intro field
  have hread : maskedBits (encodeBits value i mask shift) mask shift = field :=
    maskedBits_encodeBits value mask shift i
  refine ⟨⟨hread, congrArg staticCast hread⟩, ?_, encodeBits_decodeBits,
    encodeBits_encodeBits value mask shift i j, ?_⟩
  · intro k hk
    exact getLsbD_encodeBits_outside hk value shift i
  · intro mask' shift' hdisjoint
    exact encodeBits_comm hdisjoint value shift shift' i j

/-- The upper half of a byte, written back through another byte, and written
    before or after the lower half. -/
theorem bit_field_laws_byte :
    let value : BitVec 8 := 0x5A
    let upper : BitVec 8 := decodeBits value 0xF0 4
    encodeBits value upper 0xF0 4 = value
      ∧ encodeBits (encodeBits value (0x7 : BitVec 8) 0xF0 4) (0x3 : BitVec 8) 0x0F 0
        = encodeBits (encodeBits value (0x3 : BitVec 8) 0x0F 0) (0x7 : BitVec 8) 0xF0 4 := by
  intro value upper
  obtain ⟨-, -, hback, -, hcomm⟩ :=
    bit_field_laws value 0xF0 4 (0x7 : BitVec 8) (0x3 : BitVec 8)
  exact ⟨hback (by decide) rfl, hcomm 0x0F 0 (by decide)⟩

end KzrCore
