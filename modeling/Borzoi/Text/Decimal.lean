import Mathlib.Data.List.Basic
import Mathlib.Data.List.Induction
import Mathlib.Algebra.GroupWithZero.Nat

/-
  Decimal numerals as lists of characters.

  A number is printed by `Nat.toDigits 10` and read by
  `Nat.ofDigitChars 10`.  Leading zeros do not count.
-/

namespace Borzoi

namespace Text

/- A numeral without its leading zeros. -/
def dropZeros
    (digits : List Char) :
    List Char :=
  digits.dropWhile (· == '0')

theorem ofDigitChars_dropZeros
    (digits : List Char) :
    Nat.ofDigitChars 10 (dropZeros digits) 0 =
      Nat.ofDigitChars 10 digits 0 := by
  induction digits with
  | nil => rfl
  | cons c rest ih =>
      unfold dropZeros
      by_cases hZero : c = '0'
      · have hRest : List.dropWhile (· == '0') (c :: rest) =
            dropZeros rest := by
          simp [hZero, dropZeros]
        rw [hRest, ih, hZero, Nat.ofDigitChars_cons]
        simp
      · simp [hZero]

theorem length_dropZeros_le
    (digits : List Char) :
    (dropZeros digits).length ≤ digits.length :=
  (List.dropWhile_sublist _).length_le

/- The numeral of a small number is short. -/
theorem length_dropZeros_toDigits
    {n k : Nat}
    (hPos : 0 < k)
    (hSmall : n < 10 ^ k) :
    (dropZeros (Nat.toDigits 10 n)).length ≤ k := by
  apply Nat.le_trans (length_dropZeros_le _)
  exact (Nat.length_toDigits_le_iff (by decide) hPos).2 hSmall

/- What is printed is read back. -/
theorem ofDigitChars_dropZeros_toDigits
    (n : Nat) :
    Nat.ofDigitChars 10 (dropZeros (Nat.toDigits 10 n)) 0 = n := by
  rw [ofDigitChars_dropZeros]
  exact Nat.ofDigitChars_ten_toDigits

variable {c : Char} {n : Nat}

theorem isDigit_of_mem_toDigits
    (hMem : c ∈ Nat.toDigits 10 n) :
    c.isDigit = true :=
  Nat.isDigit_of_mem_toDigits (by decide) (by decide) hMem

/- A character is not a digit: it is in no numeral. -/
theorem not_mem_toDigits
    (hDigit : c.isDigit = false) :
    c ∉ Nat.toDigits 10 n := by
  intro hMem
  rw [isDigit_of_mem_toDigits hMem] at hDigit
  cases hDigit

theorem digitChar_of_isDigit
    (hDigit : c.isDigit = true) :
    c.toNat - '0'.toNat < 10 ∧ (c.toNat - '0'.toNat).digitChar = c := by
  have hRange : 48 ≤ c.toNat ∧ c.toNat ≤ 57 := by
    unfold Char.isDigit at hDigit
    simp only [Bool.and_eq_true, decide_eq_true_eq] at hDigit
    exact hDigit
  have hZero : '0'.toNat = 48 := rfl
  have hSmall : c.toNat - '0'.toNat < 10 := by
    omega
  refine ⟨hSmall, Char.toNat_inj.1 ?_⟩
  rw [Nat.toNat_digitChar_of_lt_ten hSmall]
  omega

/- A numeral without leading zeros is printed again. -/
theorem toDigits_ofDigitChars
    {s : List Char}
    (hNe : s ≠ [])
    (hDigits : ∀ c ∈ s, c.isDigit = true)
    (hLead : 1 < s.length → s.head? ≠ some '0') :
    Nat.toDigits 10 (Nat.ofDigitChars 10 s 0) = s := by
  induction s using List.reverseRecOn with
  | nil => exact absurd rfl hNe
  | append_singleton init d ih =>
      rcases digitChar_of_isDigit (hDigits d (by simp)) with
        ⟨hSmall, hChar⟩
      rw [Nat.ofDigitChars_append, Nat.ofDigitChars_cons,
        Nat.ofDigitChars_nil]
      by_cases hInit : init = []
      · subst hInit
        rw [Nat.ofDigitChars_nil, Nat.mul_zero, Nat.zero_add,
          Nat.toDigits_of_lt_base hSmall, hChar]
        rfl
      · have hLong : 1 < (init ++ [d]).length := by
          rw [List.length_append, List.length_singleton]
          exact Nat.lt_add_of_pos_left (List.length_pos_iff.2 hInit)
        have hFirst : init.head? ≠ some '0' := by
          have hHead := hLead hLong
          rwa [List.head?_append_of_ne_nil _ hInit] at hHead
        have hBefore := ih hInit
          (fun c hc => hDigits c (List.mem_append_left _ hc))
          (fun _ => hFirst)
        have hPos : 0 < Nat.ofDigitChars 10 init 0 := by
          rcases Nat.eq_zero_or_pos (Nat.ofDigitChars 10 init 0) with
            hZero | hPos
          · rw [hZero] at hBefore
            rw [← hBefore] at hFirst
            exact absurd rfl hFirst
          · exact hPos
        rw [← Nat.toDigits_append_toDigits (by decide) hPos hSmall,
          hBefore, Nat.toDigits_of_lt_base hSmall, hChar]

end Text

end Borzoi
