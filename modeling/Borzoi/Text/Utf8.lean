import Borzoi.Text.Joined
import Mathlib.Data.List.Basic

/-
  Bytes of a UTF-8 text.
-/

namespace Borzoi

namespace Text

/- The bytes of a text. -/
def utf8
    (text : List Char) :
    List UInt8 :=
  text.flatMap String.utf8EncodeChar

variable {c : Char} {text : List Char} {i : Nat} {b b' : UInt8}

theorem forall_uint8
    {P : UInt8 → Prop}
    (hAll : ∀ n < 256, P (UInt8.ofNat n)) :
    ∀ x, P x := by
  intro x
  have hx := hAll x.toNat x.toNat_lt
  rwa [UInt8.ofNat_toNat] at hx

theorem byte_facts :
    ∀ x : UInt8,
      (x < 0x80 → x.IsUTF8FirstByte) ∧
      (x.IsUTF8FirstByte → ¬ (0x80 ≤ x ∧ x < 0xC0)) ∧
      [(0xc0 : UInt8), 0xe0, 0xf0].all (fun lead => ¬ x ||| lead < 0x80) =
        true ∧
      x ||| 0xf0 ≠ 0xEF :=
  forall_uint8 (by decide +kernel)

theorem firstByte_of_ascii
    (x : UInt8) :
    x < 0x80 → x.IsUTF8FirstByte :=
  (byte_facts x).1

/- A character does not start with a continuation byte. -/
theorem firstByte_not_continuation
    (x : UInt8) :
    x.IsUTF8FirstByte → ¬ (0x80 ≤ x ∧ x < 0xC0) :=
  (byte_facts x).2.1

/- The first bytes of longer characters are not ASCII. -/
theorem lead_high
    (x : UInt8) :
    ∀ lead ∈ [(0xc0 : UInt8), 0xe0, 0xf0], ¬ x ||| lead < 0x80 :=
  forall_mem_of_all (byte_facts x).2.2.1

theorem lead_four
    (x : UInt8) :
    x ||| 0xf0 ≠ 0xEF :=
  (byte_facts x).2.2.2

/- Only the first byte of a character can start one. -/
theorem firstByte_encode
    (hByte : (String.utf8EncodeChar c)[i]? = some b) :
    b.IsUTF8FirstByte ↔ i = 0 := by
  rcases List.getElem?_eq_some_iff.1 hByte with ⟨hi, rfl⟩
  exact UInt8.isUTF8FirstByte_getElem_utf8EncodeChar

/- An ASCII byte is a character of its own. -/
theorem encode_length_of_ascii
    (hByte : (String.utf8EncodeChar c)[0]? = some b)
    (hAscii : b < 0x80) :
    (String.utf8EncodeChar c).length = 1 := by
  rw [String.length_utf8EncodeChar]
  rcases c.utf8Size_eq with hSize | hSize | hSize | hSize
  · exact hSize
  · rw [String.utf8EncodeChar_eq_cons_cons hSize] at hByte
    cases hByte
    exact absurd hAscii (lead_high _ _ (by decide))
  · rw [String.utf8EncodeChar_eq_cons_cons_cons hSize] at hByte
    cases hByte
    exact absurd hAscii (lead_high _ _ (by decide))
  · rw [String.utf8EncodeChar_eq_cons_cons_cons_cons hSize] at hByte
    cases hByte
    exact absurd hAscii (lead_high _ _ (by decide))

/- The lead of a byte order mark has at most two bytes behind it. -/
theorem encode_length_of_mark
    (hByte : (String.utf8EncodeChar c)[0]? = some 0xEF) :
    (String.utf8EncodeChar c).length ≤ 3 := by
  rw [String.length_utf8EncodeChar]
  rcases c.utf8Size_eq with hSize | hSize | hSize | hSize
  · omega
  · omega
  · omega
  · rw [String.utf8EncodeChar_eq_cons_cons_cons_cons hSize,
      List.getElem?_cons_zero] at hByte
    exact absurd (Option.some.inj hByte) (lead_four _)

/- A text of one ASCII character. -/
theorem utf8_replicate
    (hByte : String.utf8EncodeChar c = [b])
    (n : Nat) :
    utf8 (List.replicate n c) = List.replicate n b := by
  unfold utf8
  rw [List.flatMap_replicate, hByte, List.flatten_replicate_singleton]

/- A text starts with a character. -/
theorem utf8_lead
    (hByte : (utf8 text)[0]? = some b) :
    b.IsUTF8FirstByte := by
  cases text with
  | nil =>
      cases hByte
  | cons c text =>
      have hPos : 0 < (String.utf8EncodeChar c).length := by
        rw [String.length_utf8EncodeChar]
        exact c.utf8Size_pos
      rw [utf8, List.flatMap_cons, List.getElem?_append_left hPos]
        at hByte
      exact (firstByte_encode hByte).2 rfl

/- Behind a character stands another. -/
theorem utf8_next
    (hByte : (utf8 (c :: text))[(String.utf8EncodeChar c).length]? =
      some b) :
    b.IsUTF8FirstByte := by
  rw [utf8, List.flatMap_cons,
    List.getElem?_append_right (Nat.le_refl _), Nat.sub_self] at hByte
  exact utf8_lead hByte

/- Behind an ASCII byte a character starts. -/
theorem utf8_after_ascii
    (hByte : (utf8 text)[i]? = some b)
    (hAscii : b < 0x80)
    (hNext : (utf8 text)[i + 1]? = some b') :
    b'.IsUTF8FirstByte := by
  induction text generalizing i with
  | nil =>
      cases hByte
  | cons c text ih =>
      rcases Nat.lt_or_ge i (String.utf8EncodeChar c).length with
        hIn | hOut
      · rw [utf8, List.flatMap_cons, List.getElem?_append_left hIn]
          at hByte
        have hZero : i = 0 :=
          (firstByte_encode hByte).1 (firstByte_of_ascii b hAscii)
        rw [hZero] at hByte hNext
        have hLength := encode_length_of_ascii hByte hAscii
        have hBehind : (utf8 (c :: text))[(String.utf8EncodeChar
            c).length]? = some b' := by
          rw [hLength]
          exact hNext
        exact utf8_next hBehind
      · have hLater : (String.utf8EncodeChar c).length ≤ i + 1 := by
          omega
        rw [utf8, List.flatMap_cons, List.getElem?_append_right hOut]
          at hByte
        rw [utf8, List.flatMap_cons, List.getElem?_append_right hLater,
          Nat.sub_add_comm hOut] at hNext
        exact ih hByte hNext

/- Behind a byte order mark a character starts. -/
theorem utf8_after_mark
    (hFirst : (utf8 text)[0]? = some 0xEF)
    (hSecond : (utf8 text)[1]? = some 0xBB)
    (hThird : (utf8 text)[2]? = some 0xBF)
    (hNext : (utf8 text)[3]? = some b) :
    b.IsUTF8FirstByte := by
  cases text with
  | nil =>
      cases hFirst
  | cons c text =>
      have hPos : 0 < (String.utf8EncodeChar c).length := by
        rw [String.length_utf8EncodeChar]
        exact c.utf8Size_pos
      have hLead : (String.utf8EncodeChar c)[0]? = some 0xEF := by
        rw [utf8, List.flatMap_cons, List.getElem?_append_left hPos]
          at hFirst
        exact hFirst
      have hAtMost := encode_length_of_mark hLead
      -- no byte of the mark but the first starts a character
      have hLength : (String.utf8EncodeChar c).length = 3 := by
        by_contra hNe
        have hCases : (String.utf8EncodeChar c).length = 1 ∨
            (String.utf8EncodeChar c).length = 2 := by omega
        rcases hCases with hOne | hTwo
        · rw [← hOne] at hSecond
          exact absurd (utf8_next hSecond) (by decide)
        · rw [← hTwo] at hThird
          exact absurd (utf8_next hThird) (by decide)
      rw [← hLength] at hNext
      exact utf8_next hNext

end Text

end Borzoi
