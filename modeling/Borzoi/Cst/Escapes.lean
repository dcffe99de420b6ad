import Borzoi.Lsp.Position
import Mathlib.Data.List.Induction

/-
  The escapes of a string literal's body.

  Two scans walk the bytes of the body from backslash to backslash.  The
  reading walks its characters.  Both scans find what the reading finds,
  since no byte of a longer character is a backslash.

  Main declarations:
    * `longUnicodeEscapes`
    * `byteStringWideUnitCount`
    * `reading`
    * `escape_scanners_read`
-/

namespace Borzoi

namespace Cst

open Text
open Lsp (lenUtf16)

/- The value of an ASCII hex digit, by its code. -/
def hexDigitValue
    (code : Nat) :
    Option Nat :=
  if 0x30 ≤ code ∧ code ≤ 0x39 then
    some (code - 0x30)
  else if 0x41 ≤ code ∧ code ≤ 0x46 then
    some (code - 0x41 + 10)
  else if 0x61 ≤ code ∧ code ≤ 0x66 then
    some (code - 0x61 + 10)
  else
    none

/- The number that hex digits spell. -/
def hexNumber
    (codes : List Nat) :
    Nat :=
  codes.foldl (fun acc code => 16 * acc + (hexDigitValue code).getD 0) 0

/- `fixed_hex`. -/
def fixedHex
    (bytes : List UInt8)
    (start len : Nat) :
    Option Nat :=
  let slice := ((bytes.drop start).take len).map UInt8.toNat
  if slice.length = len ∧ slice.all fun code =>
      (hexDigitValue code).isSome then
    -- `from_str_radix` fails on a value of more than 32 bits
    if hexNumber slice < 2 ^ 32 then some (hexNumber slice) else none
  else
    none

structure LongUnicodeEscape where
  value : Nat
  start : Nat
  stop : Nat
  deriving DecidableEq, Repr

/- The loop of `long_unicode_escapes`, from a byte on. -/
def longUnicodeEscapesFrom
    (bytes : List UInt8)
    (i : Nat) :
    List LongUnicodeEscape :=
  if i < bytes.length then
    if bytes[i]? ≠ some 0x5C then
      longUnicodeEscapesFrom bytes (i + 1)
    else if bytes[i + 1]? = some 0x55 then
      match fixedHex bytes (i + 2) 8 with
      | some value =>
          ⟨value, i, i + 10⟩ :: longUnicodeEscapesFrom bytes (i + 10)
      | none => longUnicodeEscapesFrom bytes (i + 1)
    else if bytes[i + 1]? = some 0x75 then
      if (fixedHex bytes (i + 2) 4).isSome then
        longUnicodeEscapesFrom bytes (i + 6)
      else
        longUnicodeEscapesFrom bytes (i + 1)
    else if bytes[i + 1]? = some 0x78 then
      if (fixedHex bytes (i + 2) 2).isSome then
        longUnicodeEscapesFrom bytes (i + 4)
      else
        longUnicodeEscapesFrom bytes (i + 1)
    else if (bytes[i + 1]?).isSome then
      longUnicodeEscapesFrom bytes (i + 2)
    else
      longUnicodeEscapesFrom bytes (i + 1)
  else
    []
termination_by bytes.length - i

def longUnicodeEscapes
    (body : List Char) :
    List LongUnicodeEscape :=
  longUnicodeEscapesFrom (utf8 body) 0

/- The second loop of `byte_string_wide_unit_count`, from a byte on. -/
def wideEscapesFrom
    (bytes : List UInt8)
    (i : Nat) :
    Nat :=
  if i < bytes.length then
    if bytes[i]? ≠ some 0x5C then
      wideEscapesFrom bytes (i + 1)
    else if bytes[i + 1]? = some 0x75 then
      match fixedHex bytes (i + 2) 4 with
      | some v => (if 0xFF < v then 1 else 0) + wideEscapesFrom bytes (i + 6)
      | none => wideEscapesFrom bytes (i + 1)
    else if bytes[i + 1]? = some 0x55 then
      match fixedHex bytes (i + 2) 8 with
      | some v =>
          (if 0x10000 ≤ v ∧ v ≤ 0x10FFFF then 2
            else if 0x100 ≤ v ∧ v ≤ 0xFFFF then 1
            else 0) + wideEscapesFrom bytes (i + 10)
      | none => wideEscapesFrom bytes (i + 1)
    else if bytes[i + 1]? = some 0x78 then
      if (fixedHex bytes (i + 2) 2).isSome then
        wideEscapesFrom bytes (i + 4)
      else
        wideEscapesFrom bytes (i + 1)
    else if (bytes[i + 1]?).isSome then
      wideEscapesFrom bytes (i + 2)
    else
      wideEscapesFrom bytes (i + 1)
  else
    0
termination_by bytes.length - i

def byteStringWideUnitCount
    (content : List Char)
    (escapes : Bool) :
    Nat :=
  let count := ((content.filter fun c => decide (0xFF < c.toNat)).map
    lenUtf16).sum
  if escapes then
    count + wideEscapesFrom (utf8 content) 0
  else
    count

/- The escapes with a fixed number of hex digits. -/
inductive HexEscape
  | long
  | short
  | byte
  deriving DecidableEq, Repr

def HexEscape.letter :
    HexEscape → Char
  | .long => 'U'
  | .short => 'u'
  | .byte => 'x'

def HexEscape.digits :
    HexEscape → Nat
  | .long => 8
  | .short => 4
  | .byte => 2

/- The escape that a letter starts. -/
def HexEscape.of
    (letter : Char) :
    Option HexEscape :=
  if letter = 'U' then some .long
  else if letter = 'u' then some .short
  else if letter = 'x' then some .byte
  else none

/- What a literal's body is read as, piece by piece. -/
inductive Piece
  | char (c : Char)
  | hex (escape : HexEscape) (digits : List Char)
  | taken (c : Char)
  deriving DecidableEq, Repr

/- The characters are as many hex digits as the escape has. -/
def HexEscape.spelled
    (escape : HexEscape)
    (digits : List Char) :
    Prop :=
  digits.length = escape.digits ∧
    ∀ c ∈ digits, (hexDigitValue c.toNat).isSome = true

instance
    (escape : HexEscape)
    (digits : List Char) :
    Decidable (escape.spelled digits) :=
  inferInstanceAs (Decidable (_ ∧ _))

/- The left-to-right reading of a body. -/
def reading :
    List Char → List Piece
  | [] => []
  | c :: rest =>
      if c ≠ '\\' then
        .char c :: reading rest
      else
        match rest with
        | [] => [.char c]
        | d :: body =>
            match HexEscape.of d with
            | none => .taken d :: reading body
            | some escape =>
                if escape.spelled (body.take escape.digits) then
                  .hex escape (body.take escape.digits) ::
                    reading (body.drop escape.digits)
                else
                  .char c :: reading (d :: body)
termination_by text => text.length
decreasing_by
  all_goals simp
  all_goals omega

/- The characters of a piece. -/
def Piece.text :
    Piece → List Char
  | .char c => [c]
  | .hex escape digits => '\\' :: escape.letter :: digits
  | .taken c => ['\\', c]

def hexValue
    (digits : List Char) :
    Nat :=
  hexNumber (digits.map Char.toNat)

/- The UTF-16 code units of a scalar value. -/
def utf16Units
    (value : Nat) :
    List Nat :=
  if value ≤ 0xFFFF then
    [value]
  else
    [0xD800 + (value - 0x10000) / 0x400, 0xDC00 + (value - 0x10000) % 0x400]

/- The code units of a piece.  An escape that takes a letter stands for
   one unit below 256, as the letter itself does. -/
def Piece.units :
    Piece → List Nat
  | .char c => utf16Units c.toNat
  | .taken c => utf16Units c.toNat
  | .hex .long digits =>
      if hexValue digits ≤ 0x10FFFF then utf16Units (hexValue digits) else []
  | .hex _ digits => [hexValue digits]

/- The long escapes of a reading, with the bytes that they span. -/
def longEscapes
    (start : Nat) :
    List Piece → List LongUnicodeEscape
  | [] => []
  | piece :: rest =>
      let stop := start + (utf8 piece.text).length
      match piece with
      | .hex .long digits =>
          ⟨hexValue digits, start, stop⟩ :: longEscapes stop rest
      | _ => longEscapes stop rest

def HexEscape.ofByte
    (letter : UInt8) :
    Option HexEscape :=
  if letter = 0x55 then some .long
  else if letter = 0x75 then some .short
  else if letter = 0x78 then some .byte
  else none

/- The escapes with hex digits that both scans pass, with their values
   and their first bytes. -/
def hexEscapesFrom
    (bytes : List UInt8)
    (i : Nat) :
    List (HexEscape × Nat × Nat) :=
  if i < bytes.length then
    if bytes[i]? ≠ some 0x5C then
      hexEscapesFrom bytes (i + 1)
    else
      match bytes[i + 1]?.map HexEscape.ofByte with
      | none => hexEscapesFrom bytes (i + 1)
      | some none => hexEscapesFrom bytes (i + 2)
      | some (some escape) =>
          match fixedHex bytes (i + 2) escape.digits with
          | none => hexEscapesFrom bytes (i + 1)
          | some value =>
              (escape, value, i) ::
                hexEscapesFrom bytes (i + 2 + escape.digits)
  else
    []
termination_by bytes.length - i

def asLong :
    HexEscape × Nat × Nat → Option LongUnicodeEscape
  | (.long, value, i) => some ⟨value, i, i + 10⟩
  | _ => none

/- The wide units that an escape adds. -/
def wideUnits :
    HexEscape × Nat × Nat → Nat
  | (.long, v, _) =>
      if 0x10000 ≤ v ∧ v ≤ 0x10FFFF then 2
      else if 0x100 ≤ v ∧ v ≤ 0xFFFF then 1
      else 0
  | (.short, v, _) => if 0xFF < v then 1 else 0
  | (.byte, _, _) => 0

variable {c : Char} {escape : HexEscape} {pieces : List Piece} {start : Nat}

section Scans

variable {bytes : List UInt8} {i : Nat}

theorem hexEscapesFrom_plain
    (hLt : i < bytes.length)
    (hPlain : bytes[i]? ≠ some 0x5C) :
    hexEscapesFrom bytes i = hexEscapesFrom bytes (i + 1) := by
  rw [hexEscapesFrom, if_pos hLt, if_pos hPlain]

theorem hexEscapesFrom_letter
    {letter : UInt8}
    (hMark : bytes[i]? = some 0x5C)
    (hLetter : bytes[i + 1]? = some letter)
    (hEscape : HexEscape.ofByte letter = some escape) :
    hexEscapesFrom bytes i =
      match fixedHex bytes (i + 2) escape.digits with
      | none => hexEscapesFrom bytes (i + 1)
      | some value =>
          (escape, value, i) ::
            hexEscapesFrom bytes (i + 2 + escape.digits) := by
  have hLt := (List.getElem?_eq_some_iff.1 hMark).1
  rw [hexEscapesFrom, if_pos hLt, if_neg (not_not_intro hMark), hLetter,
    Option.map_some, hEscape]

theorem hexEscapesFrom_taken
    {letter : UInt8}
    (hMark : bytes[i]? = some 0x5C)
    (hLetter : bytes[i + 1]? = some letter)
    (hEscape : HexEscape.ofByte letter = none) :
    hexEscapesFrom bytes i = hexEscapesFrom bytes (i + 2) := by
  have hLt := (List.getElem?_eq_some_iff.1 hMark).1
  rw [hexEscapesFrom, if_pos hLt, if_neg (not_not_intro hMark), hLetter,
    Option.map_some, hEscape]

theorem hexEscapesFrom_last
    (hMark : bytes[i]? = some 0x5C)
    (hEnd : bytes[i + 1]? = none) :
    hexEscapesFrom bytes i = hexEscapesFrom bytes (i + 1) := by
  have hLt := (List.getElem?_eq_some_iff.1 hMark).1
  rw [hexEscapesFrom, if_pos hLt, if_neg (not_not_intro hMark), hEnd,
    Option.map_none]

theorem hexEscapesFrom_end
    (hEnd : ¬ i < bytes.length) :
    hexEscapesFrom bytes i = [] := by
  rw [hexEscapesFrom, if_neg hEnd]

/- A letter that starts no escape with hex digits. -/
theorem ofByte_none
    {next : Option UInt8}
    {letter : UInt8}
    (hLetter : next = some letter)
    (hLong : ¬ next = some 0x55)
    (hShort : ¬ next = some 0x75)
    (hByte : ¬ next = some 0x78) :
    HexEscape.ofByte letter = none := by
  subst hLetter
  unfold HexEscape.ofByte
  rw [if_neg (fun hSame => hLong (congrArg some hSame)),
    if_neg (fun hSame => hShort (congrArg some hSame)),
    if_neg (fun hSame => hByte (congrArg some hSame))]

/- The first scan keeps the long escapes. -/
theorem longUnicodeEscapesFrom_eq
    (bytes : List UInt8)
    (i : Nat) :
    longUnicodeEscapesFrom bytes i =
      (hexEscapesFrom bytes i).filterMap asLong := by
  fun_induction longUnicodeEscapesFrom bytes i with
  | case1 i hLt hPlain ih => rw [hexEscapesFrom_plain hLt hPlain, ih]
  | case2 i hLt hMark hLetter value hHex ih =>
      rw [hexEscapesFrom_letter (not_not.1 hMark) hLetter rfl]
      simp only [HexEscape.digits, hHex, List.filterMap_cons, asLong, ih]
  | case3 i hLt hMark hLetter hHex ih =>
      rw [hexEscapesFrom_letter (not_not.1 hMark) hLetter rfl]
      simp only [HexEscape.digits, hHex, ih]
  | case4 i hLt hMark hLong hLetter hHex ih =>
      rw [hexEscapesFrom_letter (not_not.1 hMark) hLetter rfl]
      rcases Option.isSome_iff_exists.1 hHex with ⟨value, hHex⟩
      simp only [HexEscape.digits, hHex, List.filterMap_cons, asLong, ih]
  | case5 i hLt hMark hLong hLetter hHex ih =>
      rw [hexEscapesFrom_letter (not_not.1 hMark) hLetter rfl]
      rw [Option.not_isSome_iff_eq_none] at hHex
      simp only [HexEscape.digits, hHex, ih]
  | case6 i hLt hMark hLong hShort hLetter hHex ih =>
      rw [hexEscapesFrom_letter (not_not.1 hMark) hLetter rfl]
      rcases Option.isSome_iff_exists.1 hHex with ⟨value, hHex⟩
      simp only [HexEscape.digits, hHex, List.filterMap_cons, asLong, ih]
  | case7 i hLt hMark hLong hShort hLetter hHex ih =>
      rw [hexEscapesFrom_letter (not_not.1 hMark) hLetter rfl]
      rw [Option.not_isSome_iff_eq_none] at hHex
      simp only [HexEscape.digits, hHex, ih]
  | case8 i hLt hMark hLong hShort hByte hSome ih =>
      rcases Option.isSome_iff_exists.1 hSome with ⟨letter, hLetter⟩
      rw [hexEscapesFrom_taken (not_not.1 hMark) hLetter
        (ofByte_none hLetter hLong hShort hByte), ih]
  | case9 i hLt hMark hLong hShort hByte hNone ih =>
      rw [Option.not_isSome_iff_eq_none] at hNone
      rw [hexEscapesFrom_last (not_not.1 hMark) hNone, ih]
  | case10 i hEnd =>
      rw [hexEscapesFrom_end hEnd]
      rfl

/- The second scan adds up their wide units. -/
theorem wideEscapesFrom_eq
    (bytes : List UInt8)
    (i : Nat) :
    wideEscapesFrom bytes i =
      ((hexEscapesFrom bytes i).map wideUnits).sum := by
  fun_induction wideEscapesFrom bytes i with
  | case1 i hLt hPlain ih => rw [hexEscapesFrom_plain hLt hPlain, ih]
  | case2 i hLt hMark hLetter value hHex ih =>
      rw [hexEscapesFrom_letter (not_not.1 hMark) hLetter rfl]
      simp only [HexEscape.digits, hHex, List.map_cons, List.sum_cons,
        wideUnits, ih]
  | case3 i hLt hMark hLetter hHex ih =>
      rw [hexEscapesFrom_letter (not_not.1 hMark) hLetter rfl]
      simp only [HexEscape.digits, hHex, ih]
  | case4 i hLt hMark hShort hLetter value hHex ih =>
      rw [hexEscapesFrom_letter (not_not.1 hMark) hLetter rfl]
      simp only [HexEscape.digits, hHex, List.map_cons, List.sum_cons,
        wideUnits, ih]
  | case5 i hLt hMark hShort hLetter hHex ih =>
      rw [hexEscapesFrom_letter (not_not.1 hMark) hLetter rfl]
      simp only [HexEscape.digits, hHex, ih]
  | case6 i hLt hMark hShort hLong hLetter hHex ih =>
      rw [hexEscapesFrom_letter (not_not.1 hMark) hLetter rfl]
      rcases Option.isSome_iff_exists.1 hHex with ⟨value, hHex⟩
      simp only [HexEscape.digits, hHex, List.map_cons, List.sum_cons,
        wideUnits, Nat.zero_add, ih]
  | case7 i hLt hMark hShort hLong hLetter hHex ih =>
      rw [hexEscapesFrom_letter (not_not.1 hMark) hLetter rfl]
      rw [Option.not_isSome_iff_eq_none] at hHex
      simp only [HexEscape.digits, hHex, ih]
  | case8 i hLt hMark hShort hLong hByte hSome ih =>
      rcases Option.isSome_iff_exists.1 hSome with ⟨letter, hLetter⟩
      rw [hexEscapesFrom_taken (not_not.1 hMark) hLetter
        (ofByte_none hLetter hLong hShort hByte), ih]
  | case9 i hLt hMark hShort hLong hByte hNone ih =>
      rw [Option.not_isSome_iff_eq_none] at hNone
      rw [hexEscapesFrom_last (not_not.1 hMark) hNone, ih]
  | case10 i hEnd =>
      rw [hexEscapesFrom_end hEnd]
      rfl

end Scans

theorem hexDigitValue_ascii
    {code : Nat}
    (hDigit : (hexDigitValue code).isSome = true) :
    code < 0x80 := by
  unfold hexDigitValue at hDigit
  split at hDigit
  · omega
  · split at hDigit
    · omega
    · split at hDigit
      · omega
      · cases hDigit

theorem hexDigitValue_lt
    (code : Nat) :
    (hexDigitValue code).getD 0 < 16 := by
  unfold hexDigitValue
  split
  · rw [Option.getD_some]
    omega
  · split
    · rw [Option.getD_some]
      omega
    · split
      · rw [Option.getD_some]
        omega
      · exact Nat.succ_pos 15

theorem hexNumber_lt
    (codes : List Nat) :
    hexNumber codes < 16 ^ codes.length := by
  induction codes using List.reverseRecOn with
  | nil => exact Nat.succ_pos 0
  | append_singleton codes code ih =>
      have hDigit := hexDigitValue_lt code
      have hStep : hexNumber (codes ++ [code]) =
          16 * hexNumber codes + (hexDigitValue code).getD 0 := by
        unfold hexNumber
        rw [List.foldl_append]
        rfl
      rw [hStep, List.length_append, List.length_singleton, Nat.pow_succ]
      omega

/- Hex digits are bytes of their own. -/
theorem utf8_digits
    {digits : List Char}
    (hDigits : ∀ c ∈ digits, (hexDigitValue c.toNat).isSome = true) :
    (utf8 digits).map UInt8.toNat = digits.map Char.toNat ∧
      (utf8 digits).length = digits.length := by
  induction digits with
  | nil => exact ⟨rfl, rfl⟩
  | cons c rest ih =>
      have hAscii := hexDigitValue_ascii (hDigits c List.mem_cons_self)
      rcases ih (fun d hMem => hDigits d (List.mem_cons_of_mem _ hMem)) with
        ⟨hCodes, hLength⟩
      have hCode : (UInt8.ofNat c.toNat).toNat = c.toNat := by
        change c.toNat % 256 = c.toNat
        omega
      rw [utf8_cons, encode_ascii hAscii, List.singleton_append,
        List.map_cons, List.map_cons, hCode, hCodes, List.length_cons,
        List.length_cons, hLength]
      exact ⟨rfl, rfl⟩

/- Bytes that are hex digits are characters that are. -/
theorem digits_utf8
    {n : Nat}
    {text : List Char}
    (hLength : ((utf8 text).take n).length = n)
    (hDigits : ∀ b ∈ (utf8 text).take n,
      (hexDigitValue b.toNat).isSome = true) :
    (text.take n).length = n ∧
      ∀ c ∈ text.take n, (hexDigitValue c.toNat).isSome = true := by
  induction n generalizing text with
  | zero =>
      refine ⟨rfl, ?_⟩
      intro c hMem
      cases hMem
  | succ n ih =>
      cases hBytes : utf8 text with
      | nil =>
          rw [hBytes] at hLength
          cases hLength
      | cons b bytes =>
          have hHead : (hexDigitValue b.toNat).isSome = true := by
            apply hDigits
            rw [hBytes]
            exact List.mem_cons_self
          have hAscii : b < 0x80 := by
            rw [UInt8.lt_iff_toNat_lt]
            exact hexDigitValue_ascii hHead
          have hFirst : (utf8 text)[0]? = some b := by
            rw [hBytes]
            rfl
          rcases cons_of_ascii hFirst hAscii with
            ⟨c, rest, rfl, hCode, hRest⟩
          rw [hRest, List.take_succ_cons] at hLength hDigits
          rcases ih (Nat.succ.inj hLength) (fun d hMem =>
            hDigits d (List.mem_cons_of_mem _ hMem)) with
            ⟨hLength', hDigits'⟩
          rw [List.take_succ_cons]
          refine ⟨congrArg Nat.succ hLength', ?_⟩
          intro d hMem
          rcases List.mem_cons.1 hMem with hHere | hLater
          · rw [hHere, hCode]
            exact hHead
          · exact hDigits' d hLater

theorem HexEscape.digits_le
    (escape : HexEscape) :
    escape.digits ≤ 8 := by
  cases escape with
  | long => exact Nat.le_refl 8
  | short => exact Nat.le_add_right 4 4
  | byte => exact Nat.le_add_right 2 6

/- `fixed_hex` reads what the characters spell. -/
theorem fixedHex_utf8
    {bytes : List UInt8}
    {text : List Char}
    (escape : HexEscape)
    (hDrop : bytes.drop start = utf8 text) :
    fixedHex bytes start escape.digits =
      if escape.spelled (text.take escape.digits) then
        some (hexValue (text.take escape.digits))
      else
        none := by
  unfold fixedHex
  dsimp only
  rw [hDrop, List.length_map, List.all_map]
  by_cases hSpelled : escape.spelled (text.take escape.digits)
  · rw [if_pos hSpelled]
    rcases hSpelled with ⟨hLength, hDigits⟩
    rcases utf8_digits hDigits with ⟨hCodes, hBytes⟩
    have hTake : (utf8 text).take escape.digits =
        utf8 (text.take escape.digits) := by
      have hSplit : utf8 text = utf8 (text.take escape.digits) ++
          utf8 (text.drop escape.digits) := by
        rw [← utf8_append, List.take_append_drop]
      rw [hSplit]
      apply List.take_left'
      exact hBytes.trans hLength
    have hAll : (utf8 (text.take escape.digits)).all
        ((fun code => (hexDigitValue code).isSome) ∘ UInt8.toNat) =
          true := by
      rw [← List.all_map, hCodes, List.all_eq_true]
      intro code hMem
      rcases List.mem_map.1 hMem with ⟨c, hC, rfl⟩
      exact hDigits c hC
    have hBound : hexNumber ((text.take escape.digits).map Char.toNat) <
        2 ^ 32 := by
      have hLt := hexNumber_lt ((text.take escape.digits).map Char.toNat)
      have hPow : 16 ^ ((text.take escape.digits).map Char.toNat).length ≤
          16 ^ 8 := by
        apply Nat.pow_le_pow_right (Nat.succ_pos 15)
        rw [List.length_map, hLength]
        exact escape.digits_le
      exact Nat.lt_of_lt_of_le hLt hPow
    rw [hTake, if_pos ⟨hBytes.trans hLength, hAll⟩, hCodes, if_pos hBound]
    rfl
  · rw [if_neg hSpelled, if_neg]
    rintro ⟨hLength, hAll⟩
    apply hSpelled
    rw [List.all_eq_true] at hAll
    exact digits_utf8 hLength hAll

------------------------------------------------------------
-- Scan And Reading
------------------------------------------------------------

/- The pieces of a reading have the digits that they need. -/
def Piece.Proper :
    Piece → Prop
  | .hex escape digits => escape.spelled digits
  | _ => True

/- The escapes with hex digits of a reading, with their first bytes. -/
def hexEscapes
    (start : Nat) :
    List Piece → List (HexEscape × Nat × Nat)
  | [] => []
  | piece :: rest =>
      let stop := start + (utf8 piece.text).length
      match piece with
      | .hex escape digits =>
          (escape, hexValue digits, start) :: hexEscapes stop rest
      | _ => hexEscapes stop rest

section Steps

variable {start : Nat} {rest : List Piece}

theorem hexEscapes_char
    {c : Char} :
    hexEscapes start (.char c :: rest) =
      hexEscapes (start + (String.utf8EncodeChar c).length) rest := by
  change hexEscapes (start + (utf8 [c]).length) rest = _
  rw [utf8_cons, utf8_nil, List.append_nil]

theorem hexEscapes_taken
    {c : Char} :
    hexEscapes start (.taken c :: rest) =
      hexEscapes (start + (String.utf8EncodeChar c).length + 1) rest := by
  change hexEscapes (start + (utf8 ['\\', c]).length) rest = _
  rw [utf8_cons, utf8_cons, utf8_nil, List.append_nil, List.length_append]
  rw [show (String.utf8EncodeChar '\\').length = 1 by decide]
  apply congrArg (fun stop => hexEscapes stop rest)
  omega

theorem hex_text_length
    {digits : List Char}
    (hSpelled : escape.spelled digits) :
    (utf8 (Piece.hex escape digits).text).length = 2 + escape.digits := by
  rw [Piece.text, utf8_cons, utf8_cons, List.length_append,
    List.length_append, (utf8_digits hSpelled.2).2, hSpelled.1]
  rw [show (String.utf8EncodeChar '\\').length = 1 by decide,
    show (String.utf8EncodeChar escape.letter).length = 1 by
      cases escape <;> decide]
  omega

theorem hexEscapes_hex
    {digits : List Char}
    (hSpelled : escape.spelled digits) :
    hexEscapes start (.hex escape digits :: rest) =
      (escape, hexValue digits, start) ::
        hexEscapes (start + 2 + escape.digits) rest := by
  rw [hexEscapes, hex_text_length hSpelled, ← Nat.add_assoc]

end Steps

theorem ofByte_of
    {letter : UInt8}
    (hCode : c.toNat = letter.toNat) :
    HexEscape.ofByte letter = HexEscape.of c := by
  have hSame : ∀ k : UInt8, ∀ d : Char, d.toNat = k.toNat →
      (letter = k ↔ c = d) := by
    intro k d hk
    rw [← UInt8.toNat_inj, ← Char.toNat_inj, hCode, hk]
  unfold HexEscape.ofByte HexEscape.of
  simp only [hSame 0x55 'U' rfl, hSame 0x75 'u' rfl, hSame 0x78 'x' rfl]

theorem of_some
    (hOf : HexEscape.of c = some escape) :
    c = escape.letter := by
  unfold HexEscape.of at hOf
  split at hOf
  · next hLong =>
      cases hOf
      exact hLong
  · split at hOf
    · next hShort =>
        cases hOf
        exact hShort
    · split at hOf
      · next hByte =>
          cases hOf
          exact hByte
      · cases hOf

theorem letter_ascii
    (escape : HexEscape) :
    escape.letter.toNat < 0x80 := by
  cases escape with
  | long => decide
  | short => decide
  | byte => decide

section Reading

variable {bytes run rest : List UInt8} {i : Nat}

/- Bytes without a backslash are passed one by one. -/
theorem hexEscapesFrom_skip
    (hRun : ∀ b ∈ run, b ≠ 0x5C)
    (hDrop : bytes.drop i = run ++ rest) :
    hexEscapesFrom bytes i = hexEscapesFrom bytes (i + run.length) := by
  induction run generalizing i with
  | nil => rfl
  | cons b run ih =>
      have hGet : bytes[i]? = some b := by
        rw [← Nat.add_zero i, ← List.getElem?_drop, hDrop]
        rfl
      have hLt := (List.getElem?_eq_some_iff.1 hGet).1
      have hPlain : bytes[i]? ≠ some 0x5C := by
        rw [hGet]
        intro hMark
        exact hRun b List.mem_cons_self (Option.some.inj hMark)
      have hNext : bytes.drop (i + 1) = run ++ rest := by
        rw [← List.drop_drop, hDrop]
        rfl
      rw [hexEscapesFrom_plain hLt hPlain,
        ih (fun b' hMem => hRun b' (List.mem_cons_of_mem _ hMem)) hNext,
        List.length_cons]
      apply congrArg
      omega

/- Only the backslash has its byte. -/
theorem encode_no_backslash
    (hPlain : c ≠ '\\') :
    ∀ b ∈ String.utf8EncodeChar c, b ≠ 0x5C := by
  intro b hMem hMark
  subst hMark
  have hAscii : '\\'.toNat < 0x80 := by decide
  exact hPlain ((mem_encode_iff hAscii).1 hMem)

theorem encode_backslash :
    String.utf8EncodeChar '\\' = [0x5C] := by
  decide

theorem encode_tail
    (c : Char) :
    ∀ b ∈ (String.utf8EncodeChar c).drop 1, b ≠ 0x5C := by
  intro b hMem
  by_cases hMark : c = '\\'
  · rw [hMark, encode_backslash] at hMem
    cases hMem
  · exact encode_no_backslash hMark b (List.mem_of_mem_drop hMem)

theorem encode_cons
    (c : Char) :
    ∃ b, String.utf8EncodeChar c =
      b :: (String.utf8EncodeChar c).drop 1 := by
  cases hBytes : String.utf8EncodeChar c with
  | nil =>
      have hLength := String.length_utf8EncodeChar c
      rw [hBytes] at hLength
      exact absurd hLength.symm (Nat.ne_of_gt c.utf8Size_pos)
  | cons b tail => exact ⟨b, rfl⟩

/- The first byte of a character that starts no hex escape. -/
theorem ofByte_lead
    {b : UInt8}
    {tail : List UInt8}
    (hBytes : String.utf8EncodeChar c = b :: tail)
    (hOf : HexEscape.of c = none) :
    HexEscape.ofByte b = none := by
  by_cases hAscii : b < 0x80
  · have hMem : b ∈ String.utf8EncodeChar c := by
      rw [hBytes]
      exact List.mem_cons_self
    have hCode := toNat_of_encode (encode_of_ascii hMem hAscii)
    rw [ofByte_of hCode]
    exact hOf
  · have hNe : ∀ k : UInt8, k < 0x80 → ¬ b = k := by
      intro k hk hSame
      exact hAscii (hSame ▸ hk)
    unfold HexEscape.ofByte
    rw [if_neg (hNe 0x55 (by decide)), if_neg (hNe 0x75 (by decide)),
      if_neg (hNe 0x78 (by decide))]

/- The scans pass the escapes of the reading. -/
theorem hexEscapesFrom_reading
    (text : List Char)
    (hDrop : bytes.drop i = utf8 text) :
    hexEscapesFrom bytes i = hexEscapes i (reading text) := by
  fun_induction reading text generalizing i with
  | case1 =>
      have hEnd : ¬ i < bytes.length := by
        rw [Nat.not_lt]
        exact List.drop_eq_nil_iff.1 hDrop
      exact hexEscapesFrom_end hEnd
  | case2 c rest hPlain ih =>
      rw [utf8_cons] at hDrop
      have hNext : bytes.drop (i + (String.utf8EncodeChar c).length) =
          utf8 rest := by
        rw [← List.drop_drop, hDrop, List.drop_left]
      rw [hexEscapesFrom_skip (encode_no_backslash hPlain) hDrop, ih hNext]
      rw [hexEscapes_char]
  | case3 c hMark =>
      have hBackslash : c = '\\' := not_not.1 hMark
      subst hBackslash
      rw [utf8_cons, encode_backslash] at hDrop
      have hGet : bytes[i]? = some 0x5C := by
        rw [← Nat.add_zero i, ← List.getElem?_drop, hDrop]
        rfl
      have hLast : bytes[i + 1]? = none := by
        rw [← List.getElem?_drop, hDrop]
        rfl
      have hEnd : ¬ i + 1 < bytes.length := by
        rw [Nat.not_lt]
        exact List.getElem?_eq_none_iff.1 hLast
      rw [hexEscapesFrom_last hGet hLast, hexEscapesFrom_end hEnd]
      rfl
  | case4 c hMark d body hOf ih =>
      have hBackslash : c = '\\' := not_not.1 hMark
      subst hBackslash
      rcases encode_cons d with ⟨b, hBytes⟩
      rw [utf8_cons, utf8_cons, encode_backslash, hBytes] at hDrop
      have hGet : bytes[i]? = some 0x5C := by
        rw [← Nat.add_zero i, ← List.getElem?_drop, hDrop]
        rfl
      have hLetter : bytes[i + 1]? = some b := by
        rw [← List.getElem?_drop, hDrop]
        rfl
      have hBehind : bytes.drop (i + 2) =
          (String.utf8EncodeChar d).drop 1 ++ utf8 body := by
        rw [← List.drop_drop, hDrop]
        rfl
      -- the rest of a longer character is passed byte by byte
      have hLength : (String.utf8EncodeChar d).length =
          ((String.utf8EncodeChar d).drop 1).length + 1 := by
        rw [hBytes]
        rfl
      have hNext : bytes.drop (i + 2 +
          ((String.utf8EncodeChar d).drop 1).length) = utf8 body := by
        rw [← List.drop_drop, hBehind, List.drop_left]
      rw [hexEscapesFrom_taken hGet hLetter (ofByte_lead hBytes hOf),
        hexEscapesFrom_skip (encode_tail d) hBehind, ih hNext,
        hexEscapes_taken, hLength]
      apply congrArg (fun start => hexEscapes start (reading body))
      omega
  | case5 c hMark d body escape hOf hSpelled ih =>
      have hBackslash : c = '\\' := not_not.1 hMark
      subst hBackslash
      have hLetter := of_some hOf
      have hAscii := letter_ascii escape
      rw [← hLetter] at hAscii
      rw [utf8_cons, utf8_cons, encode_backslash, encode_ascii hAscii]
        at hDrop
      have hGet : bytes[i]? = some 0x5C := by
        rw [← Nat.add_zero i, ← List.getElem?_drop, hDrop]
        rfl
      have hNext : bytes[i + 1]? = some (UInt8.ofNat d.toNat) := by
        rw [← List.getElem?_drop, hDrop]
        rfl
      have hBehind : bytes.drop (i + 2) = utf8 body := by
        rw [← List.drop_drop, hDrop]
        rfl
      have hCode : d.toNat = (UInt8.ofNat d.toNat).toNat := by
        change d.toNat = d.toNat % 256
        omega
      have hAfter : bytes.drop (i + 2 + escape.digits) =
          utf8 (body.drop escape.digits) := by
        have hSplit : utf8 body = utf8 (body.take escape.digits) ++
            utf8 (body.drop escape.digits) := by
          rw [← utf8_append, List.take_append_drop]
        rw [← List.drop_drop, hBehind, hSplit]
        apply List.drop_left'
        exact (utf8_digits hSpelled.2).2.trans hSpelled.1
      rw [hexEscapesFrom_letter hGet hNext ((ofByte_of hCode).trans hOf),
        fixedHex_utf8 escape hBehind, if_pos hSpelled]
      dsimp only
      rw [ih hAfter, hexEscapes_hex hSpelled]
  | case6 c hMark d body escape hOf hSpelled ih =>
      have hBackslash : c = '\\' := not_not.1 hMark
      subst hBackslash
      have hLetter := of_some hOf
      have hAscii := letter_ascii escape
      rw [← hLetter] at hAscii
      rw [utf8_cons, encode_backslash] at hDrop
      have hGet : bytes[i]? = some 0x5C := by
        rw [← Nat.add_zero i, ← List.getElem?_drop, hDrop]
        rfl
      have hBehind : bytes.drop (i + 1) = utf8 (d :: body) := by
        rw [← List.drop_drop, hDrop]
        rfl
      have hNext : bytes[i + 1]? = some (UInt8.ofNat d.toNat) := by
        rw [← Nat.add_zero (i + 1), ← List.getElem?_drop, hBehind,
          utf8_cons, encode_ascii hAscii]
        rfl
      have hBody : bytes.drop (i + 2) = utf8 body := by
        rw [← List.drop_drop (i := 1) (j := i + 1), hBehind, utf8_cons,
          encode_ascii hAscii]
        rfl
      have hCode : d.toNat = (UInt8.ofNat d.toNat).toNat := by
        change d.toNat = d.toNat % 256
        omega
      rw [hexEscapesFrom_letter hGet hNext ((ofByte_of hCode).trans hOf),
        fixedHex_utf8 escape hBody, if_neg hSpelled]
      dsimp only
      rw [ih hBehind, hexEscapes_char, encode_backslash]
      rfl

end Reading

/- A reading is of the whole body, and its escapes have their digits. -/
theorem reading_pieces
    (text : List Char) :
    (reading text).flatMap Piece.text = text ∧
      ∀ piece ∈ reading text, piece.Proper := by
  fun_induction reading text with
  | case1 =>
      refine ⟨rfl, ?_⟩
      intro piece hMem
      cases hMem
  | case2 c rest hPlain ih =>
      refine ⟨?_, List.forall_mem_cons.2 ⟨trivial, ih.2⟩⟩
      rw [List.flatMap_cons, ih.1]
      rfl
  | case3 c hMark =>
      refine ⟨rfl, List.forall_mem_cons.2 ⟨trivial, ?_⟩⟩
      intro piece hMem
      cases hMem
  | case4 c hMark d body hOf ih =>
      refine ⟨?_, List.forall_mem_cons.2 ⟨trivial, ih.2⟩⟩
      rw [List.flatMap_cons, ih.1, not_not.1 hMark]
      rfl
  | case5 c hMark d body escape hOf hSpelled ih =>
      refine ⟨?_, List.forall_mem_cons.2 ⟨hSpelled, ih.2⟩⟩
      rw [List.flatMap_cons, ih.1, not_not.1 hMark, of_some hOf]
      change '\\' :: escape.letter :: (body.take escape.digits ++
        body.drop escape.digits) = _
      rw [List.take_append_drop]
  | case6 c hMark d body escape hOf hSpelled ih =>
      refine ⟨?_, List.forall_mem_cons.2 ⟨trivial, ih.2⟩⟩
      rw [List.flatMap_cons, ih.1]
      rfl

theorem longEscapes_eq
    (hProper : ∀ piece ∈ pieces, piece.Proper) :
    longEscapes start pieces =
      (hexEscapes start pieces).filterMap asLong := by
  induction pieces generalizing start with
  | nil => rfl
  | cons piece rest ih =>
      have hRest : ∀ start, longEscapes start rest =
          (hexEscapes start rest).filterMap asLong := fun start =>
        ih fun other hMem => hProper other (List.mem_cons_of_mem _ hMem)
      cases piece with
      | char c => exact hRest _
      | taken c => exact hRest _
      | hex escape digits =>
          cases escape with
          | long =>
              have hSpelled : HexEscape.long.spelled digits :=
                hProper _ List.mem_cons_self
              have hLength := hex_text_length hSpelled
              change ⟨_, start, start + _⟩ :: longEscapes (start + _) rest = _
              rw [hexEscapes_hex hSpelled, List.filterMap_cons, hLength,
                hRest]
              rfl
          | short => exact hRest _
          | byte => exact hRest _

/- The spans are those of the pieces. -/
theorem longEscapes_span
    {found : LongUnicodeEscape}
    (hMem : found ∈ longEscapes start pieces) :
    ∃ before piece after, pieces = before ++ piece :: after ∧
      found.start = start + (utf8 (before.flatMap Piece.text)).length ∧
      found.stop = found.start + (utf8 piece.text).length := by
  induction pieces generalizing start with
  | nil => cases hMem
  | cons piece rest ih =>
      have hLater : ∀ stop, stop = start + (utf8 piece.text).length →
          found ∈ longEscapes stop rest →
          ∃ before other after,
            piece :: rest = before ++ other :: after ∧
            found.start =
              start + (utf8 (before.flatMap Piece.text)).length ∧
            found.stop = found.start + (utf8 other.text).length := by
        intro stop hStop hMem
        rcases ih hMem with ⟨before, other, after, hRest, hStart, hEnd⟩
        refine ⟨piece :: before, other, after, ?_, ?_, hEnd⟩
        · rw [hRest]
          rfl
        · rw [hStart, hStop, List.flatMap_cons, utf8_append,
            List.length_append, Nat.add_assoc]
      cases piece with
      | char c => exact hLater _ rfl hMem
      | taken c => exact hLater _ rfl hMem
      | hex escape digits =>
          cases escape with
          | long =>
              rcases List.mem_cons.1 hMem with hHere | hThere
              · rw [hHere]
                exact ⟨[], _, rest, rfl, rfl, rfl⟩
              · exact hLater _ rfl hThere
          | short => exact hLater _ rfl hMem
          | byte => exact hLater _ rfl hMem

------------------------------------------------------------
-- Wide Units
------------------------------------------------------------

def isWide
    (u : Nat) :
    Bool :=
  decide (255 < u)

/- The wide units of a text's own characters. -/
def wideChars
    (text : List Char) :
    Nat :=
  ((text.filter fun c => decide (0xFF < c.toNat)).map lenUtf16).sum

theorem wideChars_append
    (a b : List Char) :
    wideChars (a ++ b) = wideChars a + wideChars b := by
  unfold wideChars
  rw [List.filter_append, List.map_append, List.sum_append]

theorem wideChars_ascii
    {text : List Char}
    (hAscii : ∀ c ∈ text, c.toNat < 0x80) :
    wideChars text = 0 := by
  have hNone : text.filter (fun c => decide (0xFF < c.toNat)) = [] := by
    rw [List.filter_eq_nil_iff]
    intro c hMem hWide
    have hLt := hAscii c hMem
    have hGt := of_decide_eq_true hWide
    omega
  unfold wideChars
  rw [hNone]
  rfl

theorem countP_unit
    (u : Nat) :
    [u].countP isWide = if 0xFF < u then 1 else 0 := by
  rw [List.countP_singleton]
  unfold isWide
  simp only [decide_eq_true_eq]

theorem countP_utf16Units
    (value : Nat) :
    (utf16Units value).countP isWide =
      if value ≤ 0xFFFF then (if 0xFF < value then 1 else 0) else 2 := by
  unfold utf16Units
  split
  · exact countP_unit value
  · -- both halves of a surrogate pair are wide
    rw [List.countP_cons, countP_unit, if_pos (by omega), if_pos]
    exact decide_eq_true (by omega)

theorem wideChars_char
    (c : Char) :
    wideChars [c] = (utf16Units c.toNat).countP isWide := by
  rw [countP_utf16Units]
  unfold wideChars
  rw [List.filter_singleton]
  by_cases hWide : 0xFF < c.toNat
  · rw [decide_eq_true hWide]
    change lenUtf16 c + 0 = _
    rw [if_pos hWide]
    rfl
  · rw [decide_eq_false hWide, if_pos (by omega), if_neg hWide]
    rfl

/- What the scan adds for an escape is what the escape reads as. -/
theorem wideUnits_eq
    {digits : List Char}
    (start : Nat)
    (hSpelled : escape.spelled digits) :
    wideUnits (escape, hexValue digits, start) =
      (Piece.hex escape digits).units.countP isWide := by
  cases escape with
  | long =>
      unfold wideUnits Piece.units
      dsimp only
      by_cases hScalar : hexValue digits ≤ 0x10FFFF
      · rw [if_pos hScalar, countP_utf16Units]
        split_ifs <;> omega
      · rw [if_neg hScalar, if_neg (by omega), if_neg (by omega)]
        rfl
  | short =>
      exact (countP_unit (hexValue digits)).symm
  | byte =>
      have hLt := hexNumber_lt (digits.map Char.toNat)
      rw [List.length_map, hSpelled.1] at hLt
      have hByte : ¬ 0xFF < hexValue digits := by
        rw [Nat.not_lt]
        exact Nat.le_of_lt_succ hLt
      change 0 = [hexValue digits].countP isWide
      rw [countP_unit, if_neg hByte]

/- The pieces' own units, and the wide ones that the scan adds. -/
theorem wide_piece
    {piece : Piece}
    (start : Nat)
    (rest : List Piece)
    (hProper : piece.Proper) :
    wideChars piece.text +
        ((hexEscapes start (piece :: rest)).map wideUnits).sum =
      piece.units.countP isWide +
        ((hexEscapes (start + (utf8 piece.text).length) rest).map
          wideUnits).sum := by
  cases piece with
  | char c =>
      rw [Piece.units, ← wideChars_char]
      rfl
  | taken c =>
      have hText : (Piece.taken c).text = ['\\'] ++ [c] := rfl
      have hMark : wideChars ['\\'] = 0 := by decide
      rw [Piece.units, ← wideChars_char]
      change wideChars (['\\'] ++ [c]) + _ = _
      rw [wideChars_append, hMark, Nat.zero_add]
      rfl
  | hex escape digits =>
      have hAscii : wideChars (Piece.hex escape digits).text = 0 := by
        apply wideChars_ascii
        intro c hMem
        rcases List.mem_cons.1 hMem with hMark | hMem
        · rw [hMark]
          decide
        · rcases List.mem_cons.1 hMem with hLetter | hDigit
          · rw [hLetter]
            exact letter_ascii escape
          · exact hexDigitValue_ascii (hProper.2 c hDigit)
      rw [hAscii, Nat.zero_add, ← wideUnits_eq start hProper]
      rfl

/-
  Both scans agree with the reading: the first finds its long escapes,
  with their values and the characters that they span, and the second
  counts its code units above 255.
-/
theorem escape_scanners_read
    (body : List Char) :
    longUnicodeEscapes body = longEscapes 0 (reading body) ∧
    byteStringWideUnitCount body true =
      ((reading body).flatMap Piece.units).countP isWide ∧
    (reading body).flatMap Piece.text = body ∧
    ∀ found ∈ longUnicodeEscapes body, ∃ before escape after,
      body = before ++ (escape ++ after) ∧
      found.start = (utf8 before).length ∧
      found.stop = (utf8 before).length + (utf8 escape).length := by
  rcases reading_pieces body with ⟨hText, hProper⟩
  have hScan : hexEscapesFrom (utf8 body) 0 =
      hexEscapes 0 (reading body) := hexEscapesFrom_reading body rfl
  have hLong : longUnicodeEscapes body = longEscapes 0 (reading body) := by
    unfold longUnicodeEscapes
    rw [longUnicodeEscapesFrom_eq, hScan, longEscapes_eq hProper]
  refine ⟨hLong, ?_, hText, ?_⟩
  · have hSum : ∀ (pieces : List Piece) (start : Nat),
        (∀ piece ∈ pieces, piece.Proper) →
        wideChars (pieces.flatMap Piece.text) +
            ((hexEscapes start pieces).map wideUnits).sum =
          (pieces.flatMap Piece.units).countP isWide := by
      intro pieces
      induction pieces with
      | nil =>
          intro _ _
          rfl
      | cons piece rest ih =>
          intro start hAll
          have hRest := ih (start + (utf8 piece.text).length)
            fun other hMem => hAll other (List.mem_cons_of_mem _ hMem)
          have hHere := wide_piece start rest
            (hAll piece List.mem_cons_self)
          rw [List.flatMap_cons, List.flatMap_cons, wideChars_append,
            List.countP_append, ← hRest]
          omega
    unfold byteStringWideUnitCount
    dsimp only
    rw [if_pos rfl, wideEscapesFrom_eq, hScan, ← hSum _ 0 hProper, hText]
    rfl
  · intro found hMem
    rw [hLong] at hMem
    rcases longEscapes_span hMem with
      ⟨before, piece, after, hPieces, hStart, hStop⟩
    rw [Nat.zero_add] at hStart
    refine ⟨before.flatMap Piece.text, piece.text,
      after.flatMap Piece.text, ?_, hStart, ?_⟩
    · rw [← hText, hPieces, List.flatMap_append, List.flatMap_cons]
    · rw [hStop, hStart]

end Cst

end Borzoi
