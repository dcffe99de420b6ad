import Borzoi.Assembly.Cursor
import Mathlib.Algebra.GroupWithZero.Nat
import Mathlib.Algebra.Ring.Int.Defs

/-
  Compressed integers are read back.
-/

namespace Borzoi

namespace Assembly

open Program

theorem lead_one :
    ∀ n, n < 128 → UInt8.ofNat n &&& 0x80 = 0 ∧
      (UInt8.ofNat n).toNat = n := by
  decide

theorem lead_two :
    ∀ n, n < 64 →
      ¬ ((0x80 : UInt8) ||| UInt8.ofNat n) &&& 0x80 = 0 ∧
        ((0x80 : UInt8) ||| UInt8.ofNat n) &&& 0xC0 = 0x80 ∧
        (((0x80 : UInt8) ||| UInt8.ofNat n) &&& 0x3F).toNat = n := by
  decide

theorem lead_four :
    ∀ n, n < 32 →
      ¬ ((0xC0 : UInt8) ||| UInt8.ofNat n) &&& 0x80 = 0 ∧
        ¬ ((0xC0 : UInt8) ||| UInt8.ofNat n) &&& 0xC0 = 0x80 ∧
        ((0xC0 : UInt8) ||| UInt8.ofNat n) &&& 0xE0 = 0xC0 ∧
        (((0xC0 : UInt8) ||| UInt8.ofNat n) &&& 0x1F).toNat = n := by
  decide

/- Bits below the others are added. -/
theorem or_eq_add
    {x y i : Nat}
    (hHigh : 2 ^ i ∣ x)
    (hLow : y < 2 ^ i) :
    x ||| y = x + y := by
  rcases hHigh with ⟨q, rfl⟩
  exact (Nat.two_pow_add_eq_or_of_lt hLow q).symm

theorem toNat_ofNat_shift
    (n i : Nat) :
    (UInt8.ofNat (n >>> i)).toNat = n / 2 ^ i % 256 := by
  rw [UInt8.toNat_ofNat', Nat.shiftRight_eq_div_pow]

theorem toNat_ofNat_low
    (n : Nat) :
    (UInt8.ofNat (n &&& 0xFF)).toNat = n % 256 := by
  have hMask : n &&& 0xFF = n % 256 := Nat.and_two_pow_sub_one_eq_mod n 8
  rw [UInt8.toNat_ofNat', hMask, Nat.mod_mod]

theorem join_two
    (n : Nat) :
    (n / 256) <<< 8 ||| n % 256 = n := by
  rw [Nat.shiftLeft_eq, or_eq_add (i := 8) (Nat.dvd_mul_left _ _)]
  · omega
  · exact Nat.mod_lt _ (by decide)

theorem join_four
    (n : Nat) :
    (n / 2 ^ 24) <<< 24 ||| (n / 2 ^ 16 % 256) <<< 16 |||
      (n / 2 ^ 8 % 256) <<< 8 ||| n % 256 = n := by
  simp only [Nat.shiftLeft_eq]
  have hFirst : n / 2 ^ 24 * 2 ^ 24 ||| n / 2 ^ 16 % 256 * 2 ^ 16 =
      n / 2 ^ 16 * 2 ^ 16 := by
    rw [or_eq_add (i := 24) (Nat.dvd_mul_left _ _)] <;> omega
  have hSecond : n / 2 ^ 16 * 2 ^ 16 ||| n / 2 ^ 8 % 256 * 2 ^ 8 =
      n / 2 ^ 8 * 2 ^ 8 := by
    rw [or_eq_add (i := 16) (Nat.dvd_mul_left _ _)] <;> omega
  rw [hFirst, hSecond, or_eq_add (i := 8) (Nat.dvd_mul_left _ _)] <;> omega

/- A field of 7, 14 or 29 bits and its bytes. -/
inductive InField : Nat → Nat → List UInt8 → Prop
  | one {n : Nat} (hLt : n < 2 ^ 7) : InField n 7 [UInt8.ofNat n]
  | two {n : Nat} (hLt : n < 2 ^ 14) : InField n 14 (twoBytes n)
  | four {n : Nat} (hLt : n < 2 ^ 29) : InField n 29 (fourBytes n)

/- The bytes of a field give its value back. -/
theorem InField.read
    {n bits : Nat}
    {bytes : List UInt8}
    (hField : InField n bits bytes)
    (rest : List UInt8) :
    readCompressedU32 (bytes ++ rest) = some (n, bytes.length) ∧
      readRotated (bytes ++ rest) = some (n, bytes.length, bits) := by
  cases hField with
  | one hLt =>
      rcases lead_one n hLt with ⟨hLead, hValue⟩
      simp only [List.cons_append, List.nil_append, readCompressedU32,
        readRotated, if_pos hLead, hValue]
      exact ⟨rfl, rfl⟩
  | two hLt =>
      have hSmall : n >>> 8 < 64 := by
        rw [Nat.shiftRight_eq_div_pow]
        omega
      rcases lead_two _ hSmall with ⟨hOne, hTwo, hValue⟩
      have hJoined : (n >>> 8) <<< 8 ||| (UInt8.ofNat (n &&& 0xFF)).toNat =
          n := by
        rw [toNat_ofNat_low, Nat.shiftRight_eq_div_pow]
        exact join_two n
      simp only [twoBytes, List.cons_append, List.nil_append,
        readCompressedU32, readRotated, if_neg hOne, if_pos hTwo, hValue,
        hJoined]
      exact ⟨rfl, rfl⟩
  | four hLt =>
      have hSmall : n >>> 24 < 32 := by
        rw [Nat.shiftRight_eq_div_pow]
        omega
      rcases lead_four _ hSmall with ⟨hOne, hTwo, hFour, hValue⟩
      have hJoined : (n >>> 24) <<< 24 |||
          (UInt8.ofNat (n >>> 16)).toNat <<< 16 |||
          (UInt8.ofNat (n >>> 8)).toNat <<< 8 |||
          (UInt8.ofNat (n &&& 0xFF)).toNat = n := by
        rw [toNat_ofNat_low, toNat_ofNat_shift, toNat_ofNat_shift,
          Nat.shiftRight_eq_div_pow]
        exact join_four n
      simp only [fourBytes, List.cons_append, List.nil_append,
        readCompressedU32, readRotated, if_neg hOne, if_neg hTwo,
        if_pos hFour, hValue, hJoined]
      exact ⟨rfl, rfl⟩

theorem compressU32_field
    {n : Nat}
    (hRange : n ≤ maxCompressed) :
    ∃ bits, InField n bits (compressU32 n) := by
  unfold compressU32
  split
  · next hOne => exact ⟨7, .one (Nat.lt_succ_of_le hOne)⟩
  · split
    · next hTwo => exact ⟨14, .two (Nat.lt_succ_of_le hTwo)⟩
    · exact ⟨29, .four (Nat.lt_succ_of_le hRange)⟩

variable {c : Cursor} {n : Int} {rest : List UInt8} {k m : Nat}

theorem readCompressedU32_compress
    {n : Nat}
    (hRange : n ≤ maxCompressed)
    (hUnread : c.unread = compressU32 n ++ rest) :
    c.readCompressedU32 = some (n, c.skip (compressU32 n).length) := by
  rcases compressU32_field hRange with ⟨bits, hField⟩
  unfold Cursor.readCompressedU32
  rw [hUnread, (hField.read rest).1]

/- The mask of a negative value fills the bits above its field. -/
theorem fill_sign
    (hBits : k ≤ 30)
    (hMask : ~~~(BitVec.ofNat 32 (1 <<< k) - 1) =
      BitVec.ofNat 32 (2 ^ 32 - 2 ^ k))
    (hLt : m < 2 ^ k) :
    (BitVec.ofNat 32 m |||
      ~~~(BitVec.ofNat 32 (1 <<< k) - 1)).toInt = (m : Int) - 2 ^ k := by
  have hPos : 0 < 2 ^ k := Nat.two_pow_pos k
  have hLe : 2 ^ k ≤ 2 ^ 30 := Nat.pow_le_pow_right (by decide) hBits
  have hHigh : 2 ^ k ∣ 2 ^ 32 - 2 ^ k :=
    Nat.dvd_sub (Nat.pow_dvd_pow 2 (by omega)) (Nat.dvd_refl _)
  have hNat : (BitVec.ofNat 32 m |||
      BitVec.ofNat 32 (2 ^ 32 - 2 ^ k)).toNat = 2 ^ 32 - 2 ^ k + m := by
    rw [BitVec.toNat_or, BitVec.toNat_ofNat, BitVec.toNat_ofNat,
      Nat.mod_eq_of_lt (by omega), Nat.mod_eq_of_lt (by omega), Nat.or_comm,
      or_eq_add hHigh hLt]
  rw [hMask, BitVec.toInt_eq_toNat_cond, hNat, if_neg (by omega)]
  have hCast : ((2 ^ k : Nat) : Int) = 2 ^ k := by
    exact_mod_cast rfl
  omega

/- The bits of a field: a sign and `k` others. -/
theorem rotate_eq
    (hBits : k = 6 ∨ k = 13 ∨ k = 28)
    (hLow : -2 ^ k ≤ n)
    (hHigh : n < 2 ^ k) :
    rotate n (2 ^ k - 1) =
      if n < 0 then 2 * (n + 2 ^ k).toNat + 1 else 2 * n.toNat := by
  unfold rotate
  rw [Nat.and_two_pow_sub_one_eq_mod, BitVec.toNat_ofInt, Nat.shiftLeft_eq,
    or_eq_add (i := 1) (Nat.dvd_mul_left _ _)]
  · rcases hBits with rfl | rfl | rfl <;> split <;> omega
  · split <;> omega

theorem unrotate_even
    {m bits : Nat}
    (hLt : m < 2 ^ 31) :
    unrotate (2 * m) bits = m := by
  have hSign : 2 * m &&& 1 = 0 := by
    rw [Nat.and_one_is_mod]
    omega
  have hHalf : (2 * m) >>> 1 = m := by
    rw [Nat.shiftRight_eq_div_pow]
    omega
  unfold unrotate
  dsimp only
  rw [if_pos hSign, hHalf, BitVec.toInt_eq_toNat_cond, BitVec.toNat_ofNat]
  rw [Nat.mod_eq_of_lt (by omega), if_pos (by omega)]

theorem unrotate_odd
    (hBits : k ≤ 30)
    (hMask : ~~~(BitVec.ofNat 32 (1 <<< k) - 1) =
      BitVec.ofNat 32 (2 ^ 32 - 2 ^ k))
    (hLt : m < 2 ^ k) :
    unrotate (2 * m + 1) (k + 1) = (m : Int) - 2 ^ k := by
  have hSign : ¬ (2 * m + 1) &&& 1 = 0 := by
    rw [Nat.and_one_is_mod]
    omega
  have hHalf : (2 * m + 1) >>> 1 = m := by
    rw [Nat.shiftRight_eq_div_pow]
    omega
  unfold unrotate
  dsimp only
  rw [if_neg hSign, hHalf]
  exact fill_sign hBits hMask hLt

/- A signed integer comes back from its field. -/
theorem unrotate_rotate
    (hBits : k = 6 ∨ k = 13 ∨ k = 28)
    (hLow : -2 ^ k ≤ n)
    (hHigh : n < 2 ^ k) :
    unrotate (rotate n (2 ^ k - 1)) (k + 1) = n ∧
      rotate n (2 ^ k - 1) < 2 ^ (k + 1) := by
  have hMask : k ≤ 30 ∧ ~~~(BitVec.ofNat 32 (1 <<< k) - 1) =
      BitVec.ofNat 32 (2 ^ 32 - 2 ^ k) := by
    rcases hBits with rfl | rfl | rfl <;> decide
  rw [rotate_eq hBits hLow hHigh]
  split
  · next hNeg =>
      have hLt : (n + 2 ^ k).toNat < 2 ^ k := by
        rcases hBits with rfl | rfl | rfl <;> omega
      have hBack : ((n + 2 ^ k).toNat : Int) - 2 ^ k = n := by
        rcases hBits with rfl | rfl | rfl <;> omega
      rw [unrotate_odd hMask.1 hMask.2 hLt, Nat.pow_succ]
      exact ⟨hBack, by omega⟩
  · next hPos =>
      have hLt : n.toNat < 2 ^ k := by
        rcases hBits with rfl | rfl | rfl <;> omega
      have hSmall : n.toNat < 2 ^ 31 := by
        rcases hBits with rfl | rfl | rfl <;> omega
      rw [unrotate_even hSmall, Nat.pow_succ]
      exact ⟨by omega, by omega⟩

theorem compressSigned_field
    (hLow : -2 ^ 28 ≤ n)
    (hHigh : n < 2 ^ 28) :
    ∃ raw bits, InField raw bits (compressSigned n) ∧
      unrotate raw bits = n := by
  unfold compressSigned
  split
  · next hOne =>
      rcases unrotate_rotate (n := n) (k := 6) (.inl rfl) (by omega)
        (by omega) with ⟨hBack, hLt⟩
      exact ⟨_, 7, .one hLt, hBack⟩
  · split
    · next hTwo =>
        rcases unrotate_rotate (n := n) (k := 13) (.inr (.inl rfl))
          (by omega) (by omega) with ⟨hBack, hLt⟩
        exact ⟨_, 14, .two hLt, hBack⟩
    · rcases unrotate_rotate (n := n) (k := 28) (.inr (.inr rfl)) hLow
        hHigh with ⟨hBack, hLt⟩
      exact ⟨_, 29, .four hLt, hBack⟩

theorem readCompressedI32_compress
    (hLow : -2 ^ 28 ≤ n)
    (hHigh : n < 2 ^ 28)
    (hUnread : c.unread = compressSigned n ++ rest) :
    c.readCompressedI32 = some (n, c.skip (compressSigned n).length) := by
  rcases compressSigned_field hLow hHigh with ⟨raw, bits, hField, hBack⟩
  unfold Cursor.readCompressedI32
  rw [hUnread, (hField.read rest).2]
  dsimp only
  rw [hBack]

end Assembly

end Borzoi
