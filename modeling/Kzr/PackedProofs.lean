import Kzr.CoreProofs

/-! # Words of many fields

    A word may hold several fields side by side, and they may be written in any
    order and more than once.  Each of its bits is what the last write left whose
    mask has it.

    So fields with disjoint masks know nothing of each other: a field reads what
    was last written to it, and nothing depends on the order of the writes but, for
    each field, which is the last. -/

namespace KzrPacked

open Blending KzrCore

variable {w : Nat} {ι R : Type}

/-- Where a field lies in its word. -/
structure Field (w : Nat) where
  mask  : BitVec w
  shift : BitVec w

/-- Write fields one after the other. -/
def encodeEach [StaticCast R (BitVec w)] (layout : ι → Field w) (writes : List (ι × R))
    (value : BitVec w) : BitVec w :=
  writes.foldl (fun value p => encodeBits value p.2 (layout p.1).mask (layout p.1).shift) value

/-- What was last written to a field. -/
def lastWrite [DecidableEq ι] (i : ι) (writes : List (ι × R)) : Option R :=
  ((writes.filter (·.1 = i)).map Prod.snd).getLast?

/-- A write to a field, as a mask and the bits under it. -/
def shifted [StaticCast R (BitVec w)] (layout : ι → Field w) (p : ι × R) :
    BitVec w × BitVec w :=
  ((layout p.1).mask, (staticCast p.2 : BitVec w) <<< (layout p.1).shift.toNat)

theorem encodeEach_eq [StaticCast R (BitVec w)] (layout : ι → Field w) (writes : List (ι × R))
    (value : BitVec w) :
    encodeEach layout writes value = blends (writes.map (shifted layout)) value := by
  induction writes generalizing value with
  | nil => rfl
  | cons p writes ih =>
      rw [encodeEach, List.foldl_cons, encodeBits_eq]
      exact ih _

/-- No two fields have a bit in common. -/
def Disjoint (layout : ι → Field w) : Prop :=
  ∀ i j, i ≠ j → (layout i).mask &&& (layout j).mask = 0#w

theorem Disjoint.eq {layout : ι → Field w} (h : Disjoint layout) {i j : ι} {k : Nat}
    (hi : (layout i).mask.getLsbD k = true) (hj : (layout j).mask.getLsbD k = true) : i = j := by
  by_contra hne
  have hbit := congrArg (BitVec.getLsbD · k) (h i j hne)
  rw [BitVec.getLsbD_and, BitVec.getLsbD_zero, hi, hj] at hbit
  cases hbit

/-- What the mask of a field selects in the end. -/
theorem encodeEach_and_mask [DecidableEq ι] [StaticCast R (BitVec w)] {layout : ι → Field w}
    (h : Disjoint layout) (writes : List (ι × R)) (value : BitVec w) (i : ι) :
    encodeEach layout writes value &&& (layout i).mask
      = ((lastWrite i writes).map fun insert => (shifted layout (i, insert)).2).getD value
        &&& (layout i).mask := by
  apply BitVec.eq_of_getLsbD_eq
  intro k _
  rw [BitVec.getLsbD_and, BitVec.getLsbD_and, encodeEach_eq, getLsbD_blends]
  cases hmask : (layout i).mask.getLsbD k with
  | false => rw [Bool.and_false, Bool.and_false]
  | true =>
      -- the writes that reach this bit are those to the field
      have hreach : ∀ p : ι × R, (shifted layout p).1.getLsbD k = decide (p.1 = i) := by
        intro p
        by_cases hp : p.1 = i
        · rw [decide_eq_true hp, shifted, hp, hmask]
        · rw [decide_eq_false hp]
          exact Bool.eq_false_iff.mpr fun hbit => hp (h.eq hbit hmask)
      have hwrites : ((writes.map (shifted layout)).filter (·.1.getLsbD k)).map Prod.snd
          = ((writes.filter (·.1 = i)).map Prod.snd).map
            fun insert => (shifted layout (i, insert)).2 := by
        have hfilter := List.filter_congr fun (p : ι × R) (_ : p ∈ writes) => hreach p
        rw [List.filter_map, List.map_map, List.map_map, ← hfilter]
        refine List.map_congr_left fun p hp => ?_
        obtain rfl : p.1 = i := of_decide_eq_true ((hreach p).symm.trans (List.mem_filter.mp hp).2)
        rfl
      rw [hwrites, List.getLast?_map]
      rfl

/-- Bits of no field are never written. -/
theorem getLsbD_encodeEach_outside [StaticCast R (BitVec w)] {layout : ι → Field w} {k : Nat}
    (h : ∀ i, (layout i).mask.getLsbD k = false) (writes : List (ι × R)) (value : BitVec w) :
    (encodeEach layout writes value).getLsbD k = value.getLsbD k := by
  induction writes generalizing value with
  | nil => rfl
  | cons p writes ih => exact (ih _).trans (getLsbD_encodeBits_outside (h p.1) value _ p.2)

/-- **FIELDS ARE INDEPENDENT** where their masks are disjoint, for every width, every
    layout and every order of writes: each field reads what was last written to it,
    or what it held if nothing was; bits of no field stay; and any other writes that
    are the same ones at last for each field leave the same word. -/
theorem fields_independent [DecidableEq ι] [StaticCast R (BitVec w)] {layout : ι → Field w}
    (h : Disjoint layout) (writes : List (ι × R)) (value : BitVec w) :
    (∀ i, maskedBits (encodeEach layout writes value) (layout i).mask (layout i).shift
        = (lastWrite i writes).elim (maskedBits value (layout i).mask (layout i).shift)
          fun insert => maskedBits (encodeBits value insert (layout i).mask (layout i).shift)
            (layout i).mask (layout i).shift)
      ∧ (∀ k, (∀ i, (layout i).mask.getLsbD k = false) →
        (encodeEach layout writes value).getLsbD k = value.getLsbD k)
      ∧ ∀ writes' : List (ι × R), (∀ i, lastWrite i writes' = lastWrite i writes) →
        encodeEach layout writes' value = encodeEach layout writes value := by
  refine ⟨fun i => ?_, fun k hk => getLsbD_encodeEach_outside hk writes value, ?_⟩
  · rw [maskedBits_eq, encodeEach_and_mask h]
    cases lastWrite i writes with
    | none => exact (maskedBits_eq value _ _).symm
    | some insert =>
        rw [Option.elim_some, maskedBits_eq, encodeBits_eq, blend_and_mask]
        rfl
  · intro writes' hsame
    apply BitVec.eq_of_getLsbD_eq
    intro k _
    by_cases hfield : ∃ i, (layout i).mask.getLsbD k = true
    · obtain ⟨i, hi⟩ := hfield
      have hmasked : encodeEach layout writes' value &&& (layout i).mask
          = encodeEach layout writes value &&& (layout i).mask := by
        rw [encodeEach_and_mask h, encodeEach_and_mask h, hsame i]
      have hbit := congrArg (BitVec.getLsbD · k) hmasked
      rwa [BitVec.getLsbD_and, BitVec.getLsbD_and, hi, Bool.and_true, Bool.and_true] at hbit
    · have hnone : ∀ i, (layout i).mask.getLsbD k = false :=
        fun i => Bool.eq_false_iff.mpr fun hi => hfield ⟨i, hi⟩
      rw [getLsbD_encodeEach_outside hnone, getLsbD_encodeEach_outside hnone]

/-- The two halves of a byte. -/
def nibbles : Bool → Field 8
  | true  => { mask := 0xF0, shift := 4 }
  | false => { mask := 0x0F, shift := 0 }

/-- Three writes, and the two that count in the other order. -/
theorem fields_independent_nibbles :
    let writes : List (Bool × BitVec 8) := [(true, 7), (false, 3), (true, 5)]
    encodeEach nibbles writes 0x00 = 0x53
      ∧ encodeEach nibbles [(true, (5 : BitVec 8)), (false, 3)] 0x00
        = encodeEach nibbles writes 0x00 := by
  intro writes
  have hdisjoint : Disjoint nibbles := by
    rintro (_ | _) (_ | _) hne <;> first | rfl | exact absurd rfl hne
  refine ⟨by decide, (fields_independent hdisjoint writes 0x00).2.2 _ ?_⟩
  rintro (_ | _) <;> rfl

end KzrPacked
