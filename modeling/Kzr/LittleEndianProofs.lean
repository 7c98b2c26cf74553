import Kzr.WireFormatProofs
import Mathlib.Algebra.Group.Nat.Defs

/-! # Little-endian naturals of a fixed width

    `le k n` is the `k`-byte little-endian spelling of `n`, least significant
    byte first, and `value` reads one back.  Width `k` spells exactly the
    naturals below `256 ^ k`, so the fixed-width integers are formats: `uint k`
    for naturals, `u8` to `u64` for the machine's unsigned types. -/

namespace LittleEndian

open WireFormat

/-- The low `k` bytes of `n`, least significant first. -/
def le : Nat → Nat → List UInt8
  | 0, _     => []
  | k + 1, n => UInt8.ofNat n :: le k (n / 256)

/-- The natural number that little-endian bytes spell. -/
def value : List UInt8 → Nat
  | []      => 0
  | b :: bs => b.toNat + 256 * value bs

@[simp] theorem length_le (k n : Nat) : (le k n).length = k := by
  induction k generalizing n with
  | zero => rfl
  | succ k ih => simp [le, ih]

/-- A number that fits is what its digits say. -/
theorem value_le {k n : Nat} (h : n < 256 ^ k) : value (le k n) = n := by
  induction k generalizing n with
  | zero =>
      rw [Nat.pow_zero] at h
      simp only [le, value]
      omega
  | succ k ih =>
      have hdiv : n / 256 < 256 ^ k := by
        rw [Nat.pow_succ] at h
        omega
      simp only [le, value, ih hdiv, UInt8.toNat_ofNat']
      omega

theorem value_lt (bs : List UInt8) : value bs < 256 ^ bs.length := by
  induction bs with
  | nil => exact Nat.one_pos
  | cons b bs ih =>
      have hb := b.toNat_lt
      simp only [value, List.length_cons, Nat.pow_succ]
      omega

/-- Digits are those of what they say. -/
theorem le_value (bs : List UInt8) : le bs.length (value bs) = bs := by
  induction bs with
  | nil => rfl
  | cons b bs ih =>
      have hb := b.toNat_lt
      -- the first byte is the remainder by 256, the others are the quotient
      have hlow : UInt8.ofNat (value (b :: bs)) = b := by
        apply UInt8.toNat_inj.mp
        simp only [UInt8.toNat_ofNat', value]
        omega
      have hhigh : value (b :: bs) / 256 = value bs := by
        simp only [value]
        omega
      simp only [List.length_cons, le, hlow, hhigh, ih]

/-- A wide spelling is a narrow one of the low part, then one of the high part. -/
theorem le_add (j k n : Nat) : le (j + k) n = le j n ++ le k (n / 256 ^ j) := by
  induction j generalizing n with
  | zero => simp [le]
  | succ j ih =>
      rw [Nat.add_right_comm, le, le, ih, List.cons_append, Nat.pow_succ, Nat.mul_comm,
        Nat.div_div_eq_div_mul]

/-- A byte is its own spelling. -/
theorem le_one (v : UInt8) : le 1 v.toNat = [v] := by
  rw [le, le, UInt8.ofNat_toNat]

/-- What does not fit is not written. -/
theorem le_mod (k n : Nat) : le k (n % 256 ^ k) = le k n := by
  induction k generalizing n with
  | zero => rfl
  | succ k ih =>
      have hlow : UInt8.ofNat (n % 256 ^ (k + 1)) = UInt8.ofNat n := by
        apply UInt8.toNat_inj.mp
        simp only [UInt8.toNat_ofNat']
        rw [Nat.pow_succ, Nat.mul_comm, Nat.mod_mul_right_mod]
      have hhigh : n % 256 ^ (k + 1) / 256 = n / 256 % 256 ^ k := by
        rw [Nat.pow_succ, Nat.mul_comm, Nat.mod_mul_right_div_self]
      rw [le, le, hlow, hhigh, ih]

/-! ## The integers as formats -/

/-- Naturals below `256 ^ k` in `k` bytes. -/
def uint (k : Nat) : Format UInt8 Nat where
  encode := fun n => if n < 256 ^ k then some (le k n) else none
  decode := fun bs =>
    if k ≤ bs.length then some (value (bs.take k), bs.drop k) else none
  decode_encode := by
    intro n bs h rest
    by_cases hn : n < 256 ^ k
    · rw [if_pos hn] at h
      cases h
      have ht : (le k n ++ rest).take k = le k n := List.take_left' (length_le k n)
      have hd : (le k n ++ rest).drop k = rest := List.drop_left' (length_le k n)
      simp only [List.length_append, length_le, Nat.le_add_right, if_true, ht, hd, value_le hn]
    · rw [if_neg hn] at h
      exact nomatch h
  encode_decode := by
    intro bs n rest h
    by_cases hk : k ≤ bs.length
    · rw [if_pos hk] at h
      cases h
      have hlen : (bs.take k).length = k := List.length_take_of_le hk
      have hlt : value (bs.take k) < 256 ^ k := by
        have := value_lt (bs.take k)
        rwa [hlen] at this
      refine ⟨bs.take k, ?_, (List.take_append_drop k bs).symm⟩
      have hle := le_value (bs.take k)
      rw [hlen] at hle
      rw [if_pos hlt, hle]
    · rw [if_neg hk] at h
      exact nomatch h

theorem uint_encode {k n : Nat} (h : n < 256 ^ k) : (uint k).encode n = some (le k n) :=
  if_pos h

theorem uint_encode_none {k n : Nat} (h : ¬ n < 256 ^ k) : (uint k).encode n = none :=
  if_neg h

theorem lt_of_uint_encode {k n : Nat} {bs : List UInt8}
    (h : (uint k).encode n = some bs) : n < 256 ^ k := by
  by_cases hn : n < 256 ^ k
  · exact hn
  · rw [uint_encode_none hn] at h
    exact nomatch h

/-- One byte. -/
def u8 : Format UInt8 UInt8 := symbol

/-- Two bytes. -/
def u16 : Format UInt8 UInt16 :=
  (uint 2).via UInt16.toNat UInt16.ofNat (fun _ => UInt16.ofNat_toNat)
    (fun _ _ h => UInt16.toNat_ofNat_of_lt' (lt_of_uint_encode h))

/-- Four bytes. -/
def u32 : Format UInt8 UInt32 :=
  (uint 4).via UInt32.toNat UInt32.ofNat (fun _ => UInt32.ofNat_toNat)
    (fun _ _ h => UInt32.toNat_ofNat_of_lt' (lt_of_uint_encode h))

/-- Eight bytes. -/
def u64 : Format UInt8 UInt64 :=
  (uint 8).via UInt64.toNat UInt64.ofNat (fun _ => UInt64.ofNat_toNat)
    (fun _ _ h => UInt64.toNat_ofNat_of_lt' (lt_of_uint_encode h))

theorem u8_encode (v : UInt8) : u8.encode v = some [v] := rfl

theorem u16_encode (v : UInt16) : u16.encode v = some (le 2 v.toNat) :=
  uint_encode v.toNat_lt

theorem u32_encode (v : UInt32) : u32.encode v = some (le 4 v.toNat) :=
  uint_encode v.toNat_lt

theorem u64_encode (v : UInt64) : u64.encode v = some (le 8 v.toNat) :=
  uint_encode v.toNat_lt

/-- Any `k` bytes spell a natural. -/
theorem wide_uint (k : Nat) : (uint k).Wide k := by
  refine Format.wide_iff.mpr fun bs => ?_
  constructor
  · rintro ⟨n, h⟩
    rw [uint_encode (lt_of_uint_encode h)] at h
    cases h
    exact length_le k n
  · rintro rfl
    exact ⟨value bs, by rw [uint_encode (value_lt bs), le_value]⟩

theorem wide_u8 : u8.Wide 1 := by
  refine Format.wide_iff.mpr fun bs => ?_
  constructor
  · rintro ⟨c, h⟩
    cases h
    rfl
  · intro h
    obtain ⟨c, rfl⟩ := List.length_eq_one_iff.mp h
    exact ⟨c, rfl⟩

theorem wide_u16 : u16.Wide 2 := (wide_uint 2).via

theorem wide_u32 : u32.Wide 4 := (wide_uint 4).via

theorem wide_u64 : u64.Wide 8 := (wide_uint 8).via

end LittleEndian
