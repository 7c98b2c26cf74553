import Mathlib.Data.List.Induction
import Mathlib.Tactic.Common

/-! # Blending words under a mask

    Some bits of a word are taken from one word, the others from another; the
    mask says which.  A field of a word is what its mask selects, so reading a
    field, writing it and leaving the rest alone are facts about blends.

    The module names no program.  The width is arbitrary and the mask any word,
    with its ones next to each other or not. -/

namespace Blending

variable {w : Nat}

/-- The bits of `x` where the mask has ones, the bits of `v` elsewhere. -/
def blend (mask v x : BitVec w) : BitVec w := (v &&& ~~~mask) ||| (x &&& mask)

/-- **ONE BIT OF A BLEND**. -/
theorem getLsbD_blend (mask v x : BitVec w) (k : Nat) :
    (blend mask v x).getLsbD k = if mask.getLsbD k then x.getLsbD k else v.getLsbD k := by
  rw [blend, BitVec.getLsbD_or, BitVec.getLsbD_and, BitVec.getLsbD_and, BitVec.getLsbD_not]
  by_cases hk : k < w
  · cases mask.getLsbD k with
    | true => simp
    | false => simp [hk]
  · simp [BitVec.getLsbD_of_ge, Nat.not_lt.mp hk]

/-- What has been blended in is what the mask selects. -/
theorem blend_and_mask (mask v x : BitVec w) : blend mask v x &&& mask = x &&& mask := by
  apply BitVec.eq_of_getLsbD_eq
  intro k _
  rw [BitVec.getLsbD_and, BitVec.getLsbD_and, getLsbD_blend]
  cases mask.getLsbD k with
  | true => rfl
  | false => rw [Bool.and_false, Bool.and_false]

/-- Blending in what is there already changes nothing. -/
theorem blend_eq_self {mask v x : BitVec w} (h : x &&& mask = v &&& mask) :
    blend mask v x = v := by
  apply BitVec.eq_of_getLsbD_eq
  intro k _
  have hbit := congrArg (BitVec.getLsbD · k) h
  rw [BitVec.getLsbD_and, BitVec.getLsbD_and] at hbit
  rw [getLsbD_blend]
  cases hm : mask.getLsbD k with
  | true => rwa [hm, Bool.and_true, Bool.and_true] at hbit
  | false => rfl

/-- Of two blends under one mask the second counts. -/
theorem blend_blend (mask v x y : BitVec w) :
    blend mask (blend mask v x) y = blend mask v y := by
  apply BitVec.eq_of_getLsbD_eq
  intro k _
  rw [getLsbD_blend, getLsbD_blend, getLsbD_blend]
  cases mask.getLsbD k with
  | true => rfl
  | false => rfl

/-- Blends under disjoint masks commute. -/
theorem blend_comm {mask mask' : BitVec w} (h : mask &&& mask' = 0#w) (v x y : BitVec w) :
    blend mask' (blend mask v x) y = blend mask (blend mask' v y) x := by
  apply BitVec.eq_of_getLsbD_eq
  intro k _
  have hbit := congrArg (BitVec.getLsbD · k) h
  rw [BitVec.getLsbD_and, BitVec.getLsbD_zero] at hbit
  rw [getLsbD_blend, getLsbD_blend, getLsbD_blend, getLsbD_blend]
  cases hm : mask.getLsbD k with
  | true =>
      -- the other mask has a zero here
      rw [hm, Bool.true_and] at hbit
      rw [hbit]
      rfl
  | false => rfl

/-- Blends one after the other, each with its mask. -/
def blends (bs : List (BitVec w × BitVec w)) (v : BitVec w) : BitVec w :=
  bs.foldl (fun v b => blend b.1 v b.2) v

/-- **ONE BIT OF MANY BLENDS** is that of the last one whose mask has it. -/
theorem getLsbD_blends (bs : List (BitVec w × BitVec w)) (v : BitVec w) (k : Nat) :
    (blends bs v).getLsbD k
      = (((bs.filter (·.1.getLsbD k)).map Prod.snd).getLast?.getD v).getLsbD k := by
  induction bs using List.reverseRecOn with
  | nil => rfl
  | append_singleton bs b ih =>
      have hstep : blends (bs ++ [b]) v = blend b.1 (blends bs v) b.2 := by
        rw [blends, List.foldl_append]
        rfl
      rw [hstep, getLsbD_blend, List.filter_append, List.map_append]
      cases hmask : b.1.getLsbD k with
      | true =>
          simp only [List.filter_cons, hmask, if_true, List.filter_nil, List.map_cons,
            List.map_nil, List.getLast?_concat, Option.getD_some]
      | false =>
          simp only [List.filter_cons, hmask, Bool.false_eq_true, if_false, List.filter_nil,
            List.map_nil, List.append_nil, ih]

/-- Shifting down and up again loses the bits below the shift and no others. -/
theorem shiftRight_shiftLeft {x : BitVec w} {s : Nat} (h : ∀ k < s, x.getLsbD k = false) :
    (x >>> s) <<< s = x := by
  apply BitVec.eq_of_getLsbD_eq
  intro k hk
  rw [BitVec.getLsbD_shiftLeft, BitVec.getLsbD_ushiftRight]
  by_cases hs : k < s
  · simp [hs, h k hs]
  · have hback : s + (k - s) = k := by omega
    simp [hk, hs, hback]

end Blending
