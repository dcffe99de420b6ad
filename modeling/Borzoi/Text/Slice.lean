import Borzoi.Text.Utf8

/-
  Slices of a text at byte offsets.

  An offset inside a character, or past the end, has no slice.
-/

namespace Borzoi

namespace Text

/- `&text[n..]`. -/
def dropBytes :
    List Char → Nat → Option (List Char)
  | text, 0 => some text
  | [], _ + 1 => none
  | c :: text, n + 1 =>
      if c.utf8Size ≤ n + 1 then
        dropBytes text (n + 1 - c.utf8Size)
      else
        none

/- `&text[..n]`. -/
def takeBytes :
    List Char → Nat → Option (List Char)
  | _, 0 => some []
  | [], _ + 1 => none
  | c :: text, n + 1 =>
      if c.utf8Size ≤ n + 1 then
        (takeBytes text (n + 1 - c.utf8Size)).map (c :: ·)
      else
        none

/- `&text[i..j]`. -/
def sliceBytes
    (text : List Char)
    (i j : Nat) :
    Option (List Char) :=
  if i ≤ j then
    (dropBytes text i).bind (takeBytes · (j - i))
  else
    none

variable {a b c : List Char} {ch : Char} {byte : UInt8}

@[simp]
theorem utf8_nil :
    utf8 [] = [] := rfl

@[simp]
theorem utf8_append :
    utf8 (a ++ b) = utf8 a ++ utf8 b :=
  List.flatMap_append

@[simp]
theorem utf8_cons :
    utf8 (ch :: a) = String.utf8EncodeChar ch ++ utf8 a :=
  List.flatMap_cons

theorem dropBytes_append :
    dropBytes (a ++ b) (utf8 a).length = some b := by
  induction a with
  | nil =>
      cases b with
      | nil => rfl
      | cons ch b => rfl
  | cons ch a ih =>
      have hPos := ch.utf8Size_pos
      have hLength : (utf8 (ch :: a)).length =
          (ch.utf8Size + (utf8 a).length - 1) + 1 := by
        rw [utf8_cons, List.length_append,
          String.length_utf8EncodeChar]
        omega
      rw [hLength, List.cons_append, dropBytes, if_pos (by omega)]
      have hRest : ch.utf8Size + (utf8 a).length - 1 + 1 - ch.utf8Size =
          (utf8 a).length := by
        omega
      rw [hRest]
      exact ih

theorem takeBytes_append :
    takeBytes (a ++ b) (utf8 a).length = some a := by
  induction a with
  | nil =>
      cases b with
      | nil => rfl
      | cons ch b => rfl
  | cons ch a ih =>
      have hPos := ch.utf8Size_pos
      have hLength : (utf8 (ch :: a)).length =
          (ch.utf8Size + (utf8 a).length - 1) + 1 := by
        rw [utf8_cons, List.length_append,
          String.length_utf8EncodeChar]
        omega
      rw [hLength, List.cons_append, takeBytes, if_pos (by omega)]
      have hRest : ch.utf8Size + (utf8 a).length - 1 + 1 - ch.utf8Size =
          (utf8 a).length := by
        omega
      rw [hRest, ih, Option.map_some]

/- A slice between two boundaries is the text between them. -/
theorem sliceBytes_append :
    sliceBytes (a ++ (b ++ c)) (utf8 a).length
      ((utf8 a).length + (utf8 b).length) = some b := by
  rw [sliceBytes, if_pos (Nat.le_add_right _ _), dropBytes_append,
    Option.bind_some, Nat.add_sub_cancel_left, takeBytes_append]

/- The bytes of a longer character are not ASCII. -/
theorem encode_of_ascii
    (hMem : byte ∈ String.utf8EncodeChar ch)
    (hAscii : byte < 0x80) :
    String.utf8EncodeChar ch = [byte] := by
  rcases List.getElem?_of_mem hMem with ⟨i, hi⟩
  have hZero : i = 0 :=
    (firstByte_encode hi).1 (firstByte_of_ascii byte hAscii)
  rw [hZero] at hi
  have hLength := encode_length_of_ascii hi hAscii
  rcases List.length_eq_one_iff.1 hLength with ⟨b', hb'⟩
  rw [hb'] at hi ⊢
  cases hi
  rfl

/- An ASCII byte is the number of its character. -/
theorem toNat_of_encode
    (hEncode : String.utf8EncodeChar ch = [byte]) :
    ch.toNat = byte.toNat := by
  have hSize : ch.utf8Size = 1 := by
    rw [← String.length_utf8EncodeChar, hEncode]
    rfl
  rw [String.utf8EncodeChar_eq_singleton hSize] at hEncode
  have hValue : ch.val ≤ 127 := Char.utf8Size_eq_one_iff.1 hSize
  have hNat : ch.toNat ≤ 127 := hValue
  cases hEncode
  show ch.toNat = ch.toNat % 256
  omega

theorem encode_ascii
    (hAscii : ch.toNat < 0x80) :
    String.utf8EncodeChar ch = [UInt8.ofNat ch.toNat] := by
  apply String.utf8EncodeChar_eq_singleton
  apply Char.utf8Size_eq_one_iff.2
  show ch.toNat ≤ 127
  omega

/- The first byte, where it is ASCII, is the first character. -/
theorem cons_of_ascii
    (hByte : (utf8 a)[0]? = some byte)
    (hAscii : byte < 0x80) :
    ∃ ch rest,
      a = ch :: rest ∧ ch.toNat = byte.toNat ∧
        utf8 a = byte :: utf8 rest := by
  cases a with
  | nil =>
      cases hByte
  | cons ch rest =>
      have hPos : 0 < (String.utf8EncodeChar ch).length := by
        rw [String.length_utf8EncodeChar]
        exact ch.utf8Size_pos
      rw [utf8_cons, List.getElem?_append_left hPos] at hByte
      have hEncode := encode_of_ascii (List.mem_of_getElem? hByte) hAscii
      refine ⟨ch, rest, rfl, toNat_of_encode hEncode, ?_⟩
      rw [utf8_cons, hEncode]
      rfl

variable {mark : Char}

theorem mem_encode_iff
    (hMark : mark.toNat < 0x80) :
    UInt8.ofNat mark.toNat ∈ String.utf8EncodeChar ch ↔ ch = mark := by
  constructor
  · intro hMem
    have hByte : (UInt8.ofNat mark.toNat).toNat = mark.toNat := by
      show mark.toNat % 256 = mark.toNat
      omega
    have hAscii : UInt8.ofNat mark.toNat < 0x80 := by
      rw [UInt8.lt_iff_toNat_lt, hByte]
      exact hMark
    have hSame := toNat_of_encode (encode_of_ascii hMem hAscii)
    rw [hByte] at hSame
    exact Char.toNat_inj.1 hSame
  · rintro rfl
    rw [encode_ascii hMark]
    exact List.mem_singleton.2 rfl

theorem findIdx_utf8_none
    (hMark : mark.toNat < 0x80)
    (hNone : mark ∉ a) :
    (utf8 a).findIdx? (· == UInt8.ofNat mark.toNat) = none := by
  rw [List.findIdx?_eq_none_iff]
  intro x hx
  rcases List.mem_flatMap.1 hx with ⟨ch, hCh, hIn⟩
  rw [beq_eq_false_iff_ne]
  rintro rfl
  exact hNone ((mem_encode_iff hMark).1 hIn ▸ hCh)

/- Among the bytes an ASCII character is found where it stands. -/
theorem findIdx_utf8
    (hMark : mark.toNat < 0x80)
    (hBefore : mark ∉ a) :
    (utf8 (a ++ mark :: b)).findIdx? (· == UInt8.ofNat mark.toNat) =
      some (utf8 a).length := by
  rw [utf8_append, List.findIdx?_append, findIdx_utf8_none hMark hBefore,
    utf8_cons, encode_ascii hMark]
  simp [List.findIdx?_cons]

end Text

end Borzoi
