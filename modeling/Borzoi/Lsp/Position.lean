import Borzoi.Text.Lines
import Mathlib.Order.Bounds.Defs

/-
  Byte offsets and editor positions.

  `offset_to_position` walks the characters in front of an offset,
  `position_to_offset` the bytes in front of a position.  Both go over
  the same glyphs of the text, so each undoes the other.  A slice at an
  offset inside a character panics, and so does an addition past the
  range of `u32`; both are `none`.

  Main declarations:
    * `offsetToPosition`
    * `positionToOffset`
    * `offsetToPosition_eq`
    * `positionToOffset_eq`
    * `positions_invert`
    * `offset_to_position_overflows`
-/

variable {c : Char} {a b : List Char} {gs : List Glyph} {line : Nat}
variable {pos : Position}

namespace Borzoi

namespace Lsp

open Text

/- `c.len_utf16()`. -/
def lenUtf16
    (c : Char) :
    Nat :=
  if c.toNat ≤ 0xFFFF then
    1
  else
    2

theorem lenUtf16_cases
    (c : Char) :
    lenUtf16 c = 1 ∨ lenUtf16 c = 2 := by
  unfold lenUtf16
  split_ifs
  · exact .inl rfl
  · exact .inr rfl

theorem lenUtf16_pos
    (c : Char) :
    0 < lenUtf16 c := by
  rcases lenUtf16_cases c with hOne | hTwo
  · rw [hOne]
    exact Nat.one_pos
  · rw [hTwo]
    exact Nat.two_pos

/- `text.is_char_boundary(offset)`. -/
def isCharBoundary
    (text : List Char)
    (offset : Nat) :
    Bool :=
  (dropBytes text offset).isSome

/- The next boundary, or the end of the text. -/
def snapUp
    (text : List Char)
    (offset : Nat) :
    Nat :=
  if offset < (utf8 text).length ∧ ¬ isCharBoundary text offset then
    snapUp text (offset + 1)
  else
    offset
termination_by (utf8 text).length - offset

/- Behind the second half of a pair that the offset would split. -/
def snapPair
    (text : List Char)
    (offset : Nat) :
    Nat :=
  if 0 < offset ∧ offset < (utf8 text).length ∧
      (utf8 text)[offset - 1]? = some 13 ∧
      (utf8 text)[offset]? = some 10 then
    offset + 1
  else
    offset

def u32Max :
    Nat :=
  2 ^ 32 - 1

/- `+=` on a `u32`. -/
def addU32
    (a b : Nat) :
    Option Nat :=
  if a + b ≤ u32Max then some (a + b) else none

/- The loop over `chars`, from a line and a column. -/
def walkChars :
    Position → List Char → Option Position
  | pos, '\r' :: '\n' :: chars =>
      (addU32 pos.line 1).bind fun line => walkChars ⟨line, 0⟩ chars
  | pos, '\r' :: chars =>
      (addU32 pos.line 1).bind fun line => walkChars ⟨line, 0⟩ chars
  | pos, '\n' :: chars =>
      (addU32 pos.line 1).bind fun line => walkChars ⟨line, 0⟩ chars
  | pos, c :: chars =>
      (addU32 pos.character (lenUtf16 c)).bind fun character =>
        walkChars ⟨pos.line, character⟩ chars
  | pos, [] => some pos

def offsetToPosition
    (text : List Char)
    (offset : Nat) :
    Option Position :=
  let offset := snapUp text (min offset (utf8 text).length)
  let offset := snapPair text offset
  (takeBytes text offset).bind (walkChars ⟨0, 0⟩)

/- The walk to the start of a line: the line reached and the byte. -/
def seekLine
    (target : Nat) :
    List UInt8 → Nat → Nat → Nat × Nat
  | [], line, byte => (line, byte)
  | b :: rest, line, byte =>
      if line < target then
        if b = 13 then
          match rest with
          | [] => (line + 1, byte + 1)
          | next :: rest' =>
              if next = 10 then
                seekLine target rest' (line + 1) (byte + 2)
              else
                seekLine target (next :: rest') (line + 1) (byte + 1)
        else if b = 10 then
          seekLine target rest (line + 1) (byte + 1)
        else
          seekLine target rest line (byte + 1)
      else
        (line, byte)

/- The walk over the columns of a line. -/
def seekColumn
    (text : List Char)
    (remaining byte : Nat) :
    Option Nat :=
  if hMore : 0 < remaining ∧ byte < (utf8 text).length then
    let b := (utf8 text).get ⟨byte, hMore.2⟩
    if b = 13 ∨ b = 10 then
      some byte
    else
      (dropBytes text byte).bind fun rest =>
        rest.head?.bind fun ch =>
          if remaining < lenUtf16 ch then
            some (byte + ch.utf8Size)
          else
            seekColumn text (remaining - lenUtf16 ch)
              (byte + ch.utf8Size)
  else
    some byte
termination_by remaining
decreasing_by
  have hPos := lenUtf16_pos ch
  omega

def positionToOffset
    (text : List Char)
    (pos : Position) :
    Option Nat :=
  let reached := seekLine pos.line (utf8 text) 0 0
  if reached.1 < pos.line then
    some (utf8 text).length
  else
    seekColumn text pos.character reached.2

variable {text : List Char} {offset : Nat}

/- The boundaries are the lengths of the text's initial parts. -/
theorem isCharBoundary_iff :
    isCharBoundary text offset = true ↔
      ∃ a b, text = a ++ b ∧ offset = (utf8 a).length := by
  constructor
  · intro hBoundary
    unfold isCharBoundary at hBoundary
    fun_induction dropBytes text offset with
    | case1 text => exact ⟨[], text, rfl, rfl⟩
    | case2 n => cases hBoundary
    | case3 c text n hFits ih =>
        rcases ih hBoundary with ⟨a, b, rfl, hLength⟩
        refine ⟨c :: a, b, rfl, ?_⟩
        rw [utf8_cons, List.length_append,
          String.length_utf8EncodeChar]
        omega
    | case4 => cases hBoundary
  · rintro ⟨a, b, rfl, rfl⟩
    rw [isCharBoundary, dropBytes_append]
    rfl

theorem isCharBoundary_length :
    isCharBoundary text (utf8 text).length = true :=
  isCharBoundary_iff.2 ⟨text, [], (List.append_nil _).symm, rfl⟩

theorem snapUp_isLeast
    (hLe : offset ≤ (utf8 text).length) :
    IsLeast {n | isCharBoundary text n = true ∧ offset ≤ n}
      (snapUp text offset) := by
  fun_induction snapUp text offset with
  | case1 offset hOff ih =>
      rcases ih hOff.1 with ⟨⟨hBoundary, hAbove⟩, hLeast⟩
      refine ⟨⟨hBoundary, by omega⟩, ?_⟩
      rintro n ⟨hn, hOffset⟩
      apply hLeast
      refine ⟨hn, ?_⟩
      have hNe : offset ≠ n := by
        rintro rfl
        exact hOff.2 hn
      show offset + 1 ≤ n
      omega
  | case2 offset hOff =>
      refine ⟨⟨?_, Nat.le_refl _⟩, fun n hn => hn.2⟩
      by_cases hEnd : offset < (utf8 text).length
      · by_contra hNot
        exact hOff ⟨hEnd, hNot⟩
      · have hAt : offset = (utf8 text).length :=
          Nat.le_antisymm hLe (Nat.le_of_not_lt hEnd)
        rw [hAt]
        exact isCharBoundary_length

/- The byte in front of a cut, where the part ends with `\r`. -/
theorem getElem_before_cut
    {a b : List Char} :
    (0 < (utf8 a).length ∧
        (utf8 (a ++ b))[(utf8 a).length - 1]? = some 13) ↔
      a.getLast? = some '\r' := by
  rcases List.eq_nil_or_concat a with rfl | ⟨init, c, rfl⟩
  · simp
  · have hSize := c.utf8Size_pos
    have hBytes : utf8 (init.concat c) =
        utf8 init ++ String.utf8EncodeChar c := by
      rw [List.concat_eq_append, utf8_append, utf8_cons, utf8_nil,
        List.append_nil]
    have hLength : (utf8 (init.concat c)).length =
        (utf8 init).length + c.utf8Size := by
      rw [hBytes, List.length_append, String.length_utf8EncodeChar]
    have hByte : (utf8 (init.concat c ++ b))[(utf8
        (init.concat c)).length - 1]? =
        (String.utf8EncodeChar c)[c.utf8Size - 1]? := by
      have hAt : (utf8 init).length + c.utf8Size - 1 -
          (utf8 init).length = c.utf8Size - 1 := by
        omega
      rw [utf8_append, List.getElem?_append_left (by omega), hLength,
        hBytes, List.getElem?_append_right (by omega), hAt]
    rw [hByte, hLength, List.concat_eq_append, List.getLast?_concat]
    constructor
    · rintro ⟨-, hReturn⟩
      have hMem := List.mem_of_getElem? hReturn
      have hAscii : '\r'.toNat < 0x80 := by decide
      rw [(mem_encode_iff hAscii).1 hMem]
    · rintro hReturn
      cases hReturn
      exact ⟨by omega, rfl⟩

theorem getElem_at_cut
    {a b : List Char} :
    (utf8 (a ++ b))[(utf8 a).length]? = some 10 ↔
      b.head? = some '\n' := by
  rw [utf8_append, List.getElem?_append_right (Nat.le_refl _),
    Nat.sub_self]
  constructor
  · intro hByte
    rcases cons_of_ascii hByte (by decide) with ⟨ch, rest, rfl, hCh, -⟩
    have hFeed : ch = '\n' := Char.toNat_inj.1 hCh
    rw [hFeed]
    rfl
  · intro hHead
    cases b with
    | nil => cases hHead
    | cons c b =>
        cases hHead
        rfl

/- A boundary is addressable unless the pair is snapped over. -/
theorem snapPair_cut
    {a b : List Char} :
    snapPair (a ++ b) (utf8 a).length =
      if a.getLast? = some '\r' ∧ b.head? = some '\n' then
        (utf8 a).length + 1
      else
        (utf8 a).length := by
  unfold snapPair
  by_cases hPair : a.getLast? = some '\r' ∧ b.head? = some '\n'
  · rcases getElem_before_cut (b := b) |>.2 hPair.1 with
      ⟨hPos, hReturn⟩
    have hFeed := getElem_at_cut (a := a) |>.2 hPair.2
    have hIn := (List.getElem?_eq_some_iff.1 hFeed).1
    rw [if_pos hPair, if_pos ⟨hPos, hIn, hReturn, hFeed⟩]
  · rw [if_neg hPair, if_neg]
    rintro ⟨hPos, -, hReturn, hFeed⟩
    exact hPair ⟨getElem_before_cut.1 ⟨hPos, hReturn⟩,
      getElem_at_cut.1 hFeed⟩

theorem addressable_snapPair
    {a b : List Char} :
    IsLeast {n | Addressable (a ++ b) n ∧ (utf8 a).length ≤ n}
      (snapPair (a ++ b) (utf8 a).length) := by
  rw [snapPair_cut]
  by_cases hPair : a.getLast? = some '\r' ∧ b.head? = some '\n'
  · rw [if_pos hPair]
    rcases hPair with ⟨hLast, hHead⟩
    cases b with
    | nil => cases hHead
    | cons c b =>
        cases hHead
        refine ⟨⟨⟨a ++ ['\n'], b, ?_, ?_, ?_⟩, ?_⟩, ?_⟩
        · rw [List.append_assoc]
          rfl
        · intro hFeed
          rw [List.getLast?_concat] at hFeed
          cases hFeed
        · rw [utf8_append, List.length_append]
          rfl
        · exact Nat.le_succ _
        · rintro n ⟨⟨a', b', hSplit, hWhole, rfl⟩, hLe⟩
          apply Nat.lt_of_le_of_ne hLe
          intro hSame
          have hFront : takeBytes (a ++ '\n' :: b) (utf8 a).length =
              some a :=
            takeBytes_append
          rw [hSame, hSplit, takeBytes_append] at hFront
          cases hFront
          rw [List.append_cancel_left hSplit.symm] at hWhole
          exact hWhole hLast rfl
  · rw [if_neg hPair]
    refine ⟨⟨⟨a, b, rfl, ?_, rfl⟩, Nat.le_refl _⟩, fun n hn => hn.2⟩
    intro hLast hHead
    exact hPair ⟨hLast, hHead⟩

theorem Addressable.isCharBoundary
    (hAddressable : Addressable text offset) :
    isCharBoundary text offset = true := by
  rcases hAddressable with ⟨a, b, hSplit, -, hLength⟩
  exact isCharBoundary_iff.2 ⟨a, b, hSplit, hLength⟩

/- The two snaps lead to the next addressable offset. -/
theorem snap_isLeast
    (text : List Char)
    (offset : Nat) :
    IsLeast
      {n | Addressable text n ∧ min offset (utf8 text).length ≤ n}
      (snapPair text (snapUp text
        (min offset (utf8 text).length))) := by
  rcases snapUp_isLeast (Nat.min_le_right offset (utf8 text).length)
    with ⟨⟨hBoundary, hAbove⟩, hLeast⟩
  generalize snapUp text (min offset (utf8 text).length) = at_ at *
  rcases isCharBoundary_iff.1 hBoundary with ⟨a, b, rfl, rfl⟩
  rcases addressable_snapPair (a := a) (b := b) with
    ⟨⟨hAddressable, hUp⟩, hFirst⟩
  refine ⟨⟨hAddressable, Nat.le_trans hAbove hUp⟩, ?_⟩
  rintro n ⟨hn, hOffset⟩
  exact hFirst ⟨hn, hLeast ⟨Addressable.isCharBoundary hn, hOffset⟩⟩

------------------------------------------------------------
-- Both walks over glyphs
------------------------------------------------------------

theorem lenUtf16_le_utf8Size
    (c : Char) :
    lenUtf16 c ≤ c.utf8Size := by
  unfold lenUtf16
  split_ifs with hSmall
  · exact c.utf8Size_pos
  · have hNe : c.utf8Size ≠ 1 := by
      intro hOne
      have hLe : c.toNat ≤ 127 := Char.utf8Size_eq_one_iff.1 hOne
      omega
    have hPos := c.utf8Size_pos
    omega

theorem addU32_fits
    {a b : Nat}
    (hFits : a + b ≤ u32Max) :
    addU32 a b = some (a + b) :=
  if_pos hFits

/- The bytes of a character hold the units and the breaks it counts. -/
theorem utf8_cons_length
    (c : Char)
    (chars : List Char) :
    (utf8 (c :: chars)).length = c.utf8Size + (utf8 chars).length := by
  rw [utf8_cons, List.length_append, String.length_utf8EncodeChar]

/- On a text that the counters hold, the walk is that over its glyphs. -/
theorem walkChars_eq
    (pos : Position)
    (chars : List Char)
    (hLine : pos.line + (utf8 chars).length ≤ u32Max)
    (hColumn : pos.character + (utf8 chars).length ≤ u32Max) :
    walkChars pos chars = some (pos.across lenUtf16 (glyphs chars)) := by
  fun_induction walkChars pos chars with
  | case1 pos chars ih =>
      rw [utf8_cons_length, utf8_cons_length] at hLine
      have hReturn : Char.utf8Size '\r' = 1 := rfl
      rw [addU32_fits (by omega), Option.bind_some,
        ih _ (by dsimp only; omega) (by dsimp only; omega), glyphs]
      rfl
  | case2 pos chars hNot ih =>
      rw [utf8_cons_length] at hLine
      have hReturn : Char.utf8Size '\r' = 1 := rfl
      rw [addU32_fits (by omega), Option.bind_some,
        ih _ (by dsimp only; omega) (by dsimp only; omega), glyphs_single]
      · rfl
      · intro _ hHead
        cases chars with
        | nil => cases hHead
        | cons c chars =>
            cases hHead
            exact hNot chars rfl
  | case3 pos chars ih =>
      rw [utf8_cons_length] at hLine
      have hFeed : Char.utf8Size '\n' = 1 := rfl
      rw [addU32_fits (by omega), Option.bind_some,
        ih _ (by dsimp only; omega) (by dsimp only; omega), glyphs_single]
      · rfl
      · intro hLast
        cases hLast
  | case4 pos c chars _ hReturn hFeed ih =>
      rw [utf8_cons_length] at hLine hColumn
      have hUnits := lenUtf16_le_utf8Size c
      have hSingle : Glyph.single c = .char c := by
        rw [Glyph.single, if_neg hReturn, if_neg hFeed]
      rw [addU32_fits (by omega), Option.bind_some,
        ih _ (by dsimp only; omega) (by dsimp only; omega), glyphs_single,
        hSingle]
      · rfl
      · intro hLast
        cases hLast
        exact absurd rfl hReturn
  | case5 pos => rfl

/- The position of an offset is that behind the glyphs in front of the
   next addressable one. -/
theorem offsetToPosition_eq
    (hSize : (utf8 text).length ≤ u32Max)
    (offset : Nat) :
    ∃ gs hs,
      glyphs text = gs ++ hs ∧
        IsLeast
          {n | Addressable text n ∧ min offset (utf8 text).length ≤ n}
          (glyphBytes gs) ∧
        offsetToPosition text offset =
          some ((⟨0, 0⟩ : Position).across lenUtf16 gs) := by
  have hLeast := snap_isLeast text offset
  have hAt : offsetToPosition text offset =
      (takeBytes text (snapPair text (snapUp text
        (min offset (utf8 text).length)))).bind
        (walkChars ⟨0, 0⟩) := rfl
  rw [hAt]
  clear hAt
  generalize snapPair text (snapUp text
    (min offset (utf8 text).length)) = at_ at *
  rcases addressable_iff.1 hLeast.1.1 with ⟨gs, hs, hGlyphs, rfl⟩
  refine ⟨gs, hs, hGlyphs, hLeast, ?_⟩
  rcases glyphs_cut hGlyphs with ⟨-, hFront, -⟩
  have hText : text = glyphChars gs ++ glyphChars hs := by
    rw [← glyphChars_append, ← hGlyphs, glyphChars_glyphs]
  have hTake : takeBytes text (glyphBytes gs) =
      some (glyphChars gs) := by
    rw [hText]
    exact takeBytes_append
  have hFits : 0 + (utf8 (glyphChars gs)).length ≤ u32Max := by
    rw [Nat.zero_add]
    exact Nat.le_trans (Addressable.le hLeast.1.1) hSize
  rw [hTake, Option.bind_some, walkChars_eq _ _ hFits hFits, hFront]

variable {byte target : Nat}

/- Bytes that are no break leave the line. -/
theorem seekLine_run
    {bs rest : List UInt8}
    (hLine : line < target)
    (hBytes : ∀ b ∈ bs, b ≠ 13 ∧ b ≠ 10) :
    seekLine target (bs ++ rest) line byte =
      seekLine target rest line (byte + bs.length) := by
  induction bs generalizing byte with
  | nil => rfl
  | cons b bs ih =>
      rcases hBytes b List.mem_cons_self with ⟨hReturn, hFeed⟩
      have hRest : seekLine target (bs ++ rest) line (byte + 1) =
          seekLine target rest line (byte + 1 + bs.length) :=
        ih fun b hb => hBytes b (List.mem_cons_of_mem _ hb)
      have hLength : byte + (b :: bs).length =
          byte + 1 + bs.length := by
        rw [List.length_cons]
        omega
      rw [List.cons_append, seekLine.eq_def]
      simp only [if_pos hLine, if_neg hReturn, if_neg hFeed]
      rw [hRest, hLength]

theorem seekLine_reached
    {bs : List UInt8}
    (hLine : ¬ line < target) :
    seekLine target bs line byte = (line, byte) := by
  cases bs with
  | nil => rfl
  | cons b bs =>
      rw [seekLine.eq_def]
      exact if_neg hLine

theorem encode_no_break
    (hReturn : c ≠ '\r')
    (hFeed : c ≠ '\n') :
    ∀ b ∈ String.utf8EncodeChar c, b ≠ 13 ∧ b ≠ 10 := by
  intro b hb
  have hAsciiReturn : '\r'.toNat < 0x80 := by decide
  have hAsciiFeed : '\n'.toNat < 0x80 := by decide
  constructor
  · rintro rfl
    exact hReturn ((mem_encode_iff hAsciiReturn).1 hb)
  · rintro rfl
    exact hFeed ((mem_encode_iff hAsciiFeed).1 hb)

/- One glyph of the walk over the lines. -/
theorem seekLine_glyph
    {g : Glyph}
    {rest : List Char}
    (hLine : pos.line < target)
    (hWhole : Whole g.chars rest)
    (hProper : g.Proper) :
    seekLine target (utf8 (g.chars ++ rest)) pos.line byte =
      seekLine target (utf8 rest) (pos.past lenUtf16 g).line
        (byte + glyphBytes [g]) := by
  cases g with
  | char c =>
      rcases hProper c rfl with ⟨hReturn, hFeed⟩
      have hBytes : glyphBytes [.char c] =
          (String.utf8EncodeChar c).length := by
        simp [glyphBytes, Glyph.chars]
      rw [hBytes]
      exact seekLine_run hLine (encode_no_break hReturn hFeed)
  | crlf =>
      show seekLine target (13 :: 10 :: utf8 rest) pos.line byte = _
      rw [seekLine]
      simp only [if_pos hLine, if_true]
      rfl
  | lf =>
      show seekLine target (10 :: utf8 rest) pos.line byte = _
      rw [seekLine.eq_def]
      simp only [if_pos hLine]
      rfl
  | cr =>
      show seekLine target (13 :: utf8 rest) pos.line byte = _
      cases hRest : utf8 rest with
      | nil =>
          rw [seekLine.eq_def]
          simp only [if_pos hLine, if_true]
          rfl
      | cons next bytes =>
          have hNext : next ≠ 10 := by
            rintro rfl
            have hAt := getElem_at_cut (a := []) (b := rest)
            rw [List.nil_append, hRest] at hAt
            exact hWhole rfl (hAt.1 rfl)
          rw [seekLine.eq_def]
          simp only [if_pos hLine, if_true, if_neg hNext]
          rfl

/- The walk over the lines stops behind the same glyphs. -/
theorem seekLine_glyphs
    {chars : List Char}
    (hGlyphs : glyphs chars = gs)
    (n : Nat)
    (pos : Position)
    (byte : Nat) :
    seekLine (pos.line + n) (utf8 chars) pos.line byte =
      ((pos.across lenUtf16 (linesBefore n gs)).line,
        byte + glyphBytes (linesBefore n gs)) := by
  induction gs generalizing chars n pos byte with
  | nil =>
      have hNone : chars = [] := by
        rw [← glyphChars_glyphs chars, hGlyphs]
        rfl
      rw [hNone]
      cases n <;> rfl
  | cons g gs ih =>
      cases n with
      | zero =>
          rw [linesBefore_zero]
          exact seekLine_reached (Nat.lt_irrefl _)
      | succ n =>
          rcases glyphs_cons hGlyphs with
            ⟨rest, rfl, hRest, hWhole, hProper⟩
          have hLine : pos.line < pos.line + (n + 1) := by omega
          rw [seekLine_glyph hLine hWhole hProper]
          have hStep : ∀ m,
              linesBefore (n + 1) (g :: gs) = g :: linesBefore m gs →
              pos.line + (n + 1) = (pos.past lenUtf16 g).line + m →
              seekLine (pos.line + (n + 1)) (utf8 rest)
                  (pos.past lenUtf16 g).line (byte + glyphBytes [g]) =
                ((pos.across lenUtf16
                    (linesBefore (n + 1) (g :: gs))).line,
                  byte + glyphBytes
                    (linesBefore (n + 1) (g :: gs))) := by
            intro m hLines hTarget
            have hBytes : glyphBytes (g :: linesBefore m gs) =
                glyphBytes [g] + glyphBytes (linesBefore m gs) :=
              glyphBytes_append [g] _
            rw [hTarget, hLines, ih hRest, Position.across_cons, hBytes,
              Nat.add_assoc]
          cases g with
          | char c => exact hStep (n + 1) rfl rfl
          | crlf => exact hStep n rfl (by simp [Position.past]; omega)
          | cr => exact hStep n rfl (by simp [Position.past]; omega)
          | lf => exact hStep n rfl (by simp [Position.past]; omega)

theorem seekColumn_at
    {k byte : Nat}
    {b : UInt8}
    (hMore : 0 < k)
    (hByte : (utf8 text)[byte]? = some b) :
    seekColumn text k byte =
      if b = 13 ∨ b = 10 then
        some byte
      else
        (dropBytes text byte).bind fun rest =>
          rest.head?.bind fun ch =>
            if k < lenUtf16 ch then
              some (byte + ch.utf8Size)
            else
              seekColumn text (k - lenUtf16 ch)
                (byte + ch.utf8Size) := by
  rcases List.getElem?_eq_some_iff.1 hByte with ⟨hIn, hGet⟩
  have hAt : (utf8 text).get ⟨byte, hIn⟩ = b := hGet
  rw [seekColumn, dif_pos ⟨hMore, hIn⟩]
  simp only [hAt]

theorem utf8_at_cut
    {byte : UInt8}
    (hHead : (utf8 b)[0]? = some byte) :
    (utf8 (a ++ b))[(utf8 a).length]? = some byte := by
  rw [utf8_append, List.getElem?_append_right (Nat.le_refl _),
    Nat.sub_self]
  exact hHead

/- The walk over the columns stops behind the same glyphs. -/
theorem seekColumn_glyphs
    (hGlyphs : glyphs b = gs)
    (k : Nat) :
    seekColumn (a ++ b) k (utf8 a).length =
      some ((utf8 a).length +
        glyphBytes (columnsBefore lenUtf16 k gs)) := by
  induction gs generalizing a b k with
  | nil =>
      have hNone : b = [] := by
        rw [← glyphChars_glyphs b, hGlyphs]
        rfl
      rw [hNone, List.append_nil, seekColumn,
        dif_neg (fun hMore => Nat.lt_irrefl _ hMore.2)]
      cases k <;> rfl
  | cons g gs ih =>
      rcases glyphs_cons hGlyphs with ⟨rest, rfl, hRest, -, hProper⟩
      cases k with
      | zero =>
          rw [seekColumn, dif_neg (fun hMore => Nat.lt_irrefl _ hMore.1),
            columnsBefore_zero]
          rfl
      | succ k =>
          cases g with
          | crlf =>
              rw [seekColumn_at (b := 13) (Nat.succ_pos k)
                (utf8_at_cut rfl), if_pos (.inl rfl)]
              rfl
          | cr =>
              rw [seekColumn_at (b := 13) (Nat.succ_pos k)
                (utf8_at_cut rfl), if_pos (.inl rfl)]
              rfl
          | lf =>
              rw [seekColumn_at (b := 10) (Nat.succ_pos k)
                (utf8_at_cut rfl), if_pos (.inr rfl)]
              rfl
          | char c =>
              rcases hProper c rfl with ⟨hReturn, hFeed⟩
              have hPos : 0 < (String.utf8EncodeChar c).length := by
                rw [String.length_utf8EncodeChar]
                exact c.utf8Size_pos
              have hHead : (utf8 (c :: rest))[0]? =
                  some ((String.utf8EncodeChar c).get ⟨0, hPos⟩) := by
                rw [utf8_cons, List.getElem?_append_left hPos]
                exact List.getElem?_eq_getElem hPos
              have hNo := encode_no_break hReturn hFeed _
                (List.get_mem (String.utf8EncodeChar c) ⟨0, hPos⟩)
              have hDrop : dropBytes (a ++ c :: rest) (utf8 a).length =
                  some (c :: rest) :=
                dropBytes_append
              have hChars : Glyph.chars (.char c) ++ rest = c :: rest :=
                rfl
              rw [hChars, seekColumn_at (Nat.succ_pos k)
                (utf8_at_cut hHead), if_neg (not_or.2 hNo), hDrop]
              have hLength : (utf8 (a ++ [c])).length =
                  (utf8 a).length + c.utf8Size := by
                simp
              have hBytes : ∀ hs, glyphBytes (.char c :: hs) =
                  c.utf8Size + glyphBytes hs := by
                intro hs
                simp [glyphBytes, Glyph.chars]
              rw [columnsBefore, hBytes]
              show (if k + 1 < lenUtf16 c then _ else _) = _
              by_cases hShort : k + 1 < lenUtf16 c
              · have hZero : k + 1 - lenUtf16 c = 0 := by omega
                rw [if_pos hShort, hZero, columnsBefore_zero]
                rfl
              · have hSplit : a ++ c :: rest = a ++ [c] ++ rest := by
                  simp
                rw [if_neg hShort, hSplit, ← hLength, ih hRest, hLength,
                  Nat.add_assoc]

/- The offset of a position is that behind the glyphs in front of it. -/
theorem positionToOffset_eq
    (text : List Char)
    (pos : Position) :
    positionToOffset text pos =
      some (glyphBytes (glyphsBefore lenUtf16 pos (glyphs text))) := by
  have hGlyphs : glyphs text = glyphs text := rfl
  have hSeek := seekLine_glyphs hGlyphs pos.line ⟨0, 0⟩ 0
  rw [Nat.zero_add, Nat.zero_add] at hSeek
  rcases linesBefore_split lenUtf16 ⟨0, 0⟩ pos.line (glyphs text) with
    ⟨rest, hSplit, hEnd⟩
  have hText : text =
      glyphChars (linesBefore pos.line (glyphs text)) ++
        glyphChars rest := by
    rw [← glyphChars_append, ← hSplit, glyphChars_glyphs]
  rw [glyphsBefore_eq hSplit]
  unfold positionToOffset
  simp only [hSeek]
  rcases hEnd with hAt | ⟨hNone, hShort⟩
  · have hLine : ((⟨0, 0⟩ : Position).across lenUtf16
        (linesBefore pos.line (glyphs text))).line = pos.line := by
      rw [hAt, Nat.zero_add]
    rw [hLine, if_neg (Nat.lt_irrefl _), glyphBytes_append]
    generalize linesBefore pos.line (glyphs text) = front at *
    rw [hText]
    exact seekColumn_glyphs (glyphs_cut hSplit).2.2 pos.character
  · rw [Nat.zero_add] at hShort
    have hEmpty : columnsBefore lenUtf16 pos.character [] = [] := by
      cases pos.character <;> rfl
    rw [if_pos hShort, hNone, hEmpty, List.append_nil]
    rw [hNone, glyphChars_nil, List.append_nil] at hText
    rw [glyphBytes, ← hText]

end Lsp

end Borzoi

namespace Borzoi

namespace Lsp

open Text

/- A column between the two halves of a character. -/
def InsidePair
    (text : List Char)
    (pos : Position)
    (a : List Char)
    (c : Char)
    (b : List Char) :
    Prop :=
  text = a ++ c :: b ∧ lenUtf16 c = 2 ∧
    ∃ start,
      offsetToPosition text (utf8 a).length = some start ∧
        start.line = pos.line ∧ pos.character = start.character + 1

/- Where a position on a line of the text leads: behind the character
   whose halves it parts, else to the last place that is not behind the
   column. -/
def Answers
    (text : List Char)
    (pos : Position)
    (found : Nat) :
    Prop :=
  ∃ reached,
    offsetToPosition text found = some reached ∧
      reached.line = pos.line ∧
      (∀ a c b, InsidePair text pos a c b →
        found = (utf8 (a ++ [c])).length) ∧
      ((∀ a c b, ¬ InsidePair text pos a c b) →
        reached.character ≤ pos.character ∧
          ∀ offset other,
            Addressable text offset →
            offsetToPosition text offset = some other →
            other.line = pos.line →
            other.character ≤ pos.character →
            offset ≤ found)

variable {text : List Char} {offset : Nat}

variable {hs : List Glyph}

/- The position between two glyphs. -/
theorem offsetToPosition_cut
    (hSize : (utf8 text).length ≤ u32Max)
    (hGlyphs : glyphs text = gs ++ hs) :
    offsetToPosition text (glyphBytes gs) =
      some ((⟨0, 0⟩ : Position).across lenUtf16 gs) := by
  have hAddressable : Addressable text (glyphBytes gs) :=
    addressable_iff.2 ⟨gs, hs, hGlyphs, rfl⟩
  rcases offsetToPosition_eq hSize (glyphBytes gs)
    with ⟨gs', hs', hGlyphs', hLeast, hPos⟩
  rw [Nat.min_eq_left hAddressable.le] at hLeast
  have hBytes : glyphBytes gs = glyphBytes gs' :=
    Nat.le_antisymm hLeast.1.2
      (hLeast.2 ⟨hAddressable, Nat.le_refl _⟩)
  rw [hPos, glyphBytes_inj (hGlyphs.symm.trans hGlyphs') hBytes]

/- A position taken from an offset leads back. -/
theorem positionToOffset_cut
    (hGlyphs : glyphs text = gs ++ hs) :
    positionToOffset text ((⟨0, 0⟩ : Position).across lenUtf16 gs) =
      some (glyphBytes gs) := by
  rcases @glyphsBefore_stops lenUtf16
      ((⟨0, 0⟩ : Position).across lenUtf16 gs) (glyphs text) with
    ⟨more, hSplit, hStops⟩
  have hLine : ((⟨0, 0⟩ : Position).across lenUtf16 gs).line ≤
      ((⟨0, 0⟩ : Position).across lenUtf16 (glyphs text)).line := by
    rw [hGlyphs, Position.across_append]
    exact Position.line_le_across _ hs
  have hSame : glyphsBefore lenUtf16
      ((⟨0, 0⟩ : Position).across lenUtf16 gs) (glyphs text) ++ more =
      gs ++ hs :=
    hSplit.symm.trans hGlyphs
  rw [positionToOffset_eq,
    (hStops hLine).at_target lenUtf16_pos hSame]

theorem lenUtf16_break
    (hTwo : lenUtf16 c = 2) :
    c ≠ '\r' ∧ c ≠ '\n' := by
  constructor
  · rintro rfl
    cases hTwo
  · rintro rfl
    cases hTwo

/- A pair stands between two glyphs of the text. -/
theorem InsidePair.glyphs
    (hSize : (utf8 text).length ≤ u32Max)
    (hInside : InsidePair text pos a c b) :
    Text.glyphs text = Text.glyphs a ++ .char c :: Text.glyphs b ∧
      ((⟨0, 0⟩ : Position).across lenUtf16 (Text.glyphs a)).line =
        pos.line ∧
      pos.character =
        ((⟨0, 0⟩ : Position).across lenUtf16
          (Text.glyphs a)).character + 1 := by
  rcases hInside with ⟨rfl, hTwo, start, hStart, hLine, hColumn⟩
  rcases lenUtf16_break hTwo with ⟨hReturn, hFeed⟩
  have hGlyphs := glyphs_around hReturn hFeed a b
  have hBytes : glyphBytes (Text.glyphs a) = (utf8 a).length := by
    rw [glyphBytes, glyphChars_glyphs]
  rw [← hBytes, offsetToPosition_cut hSize hGlyphs] at hStart
  cases hStart
  exact ⟨hGlyphs, hLine, hColumn⟩

/- Every column between two halves that the glyphs show. -/
theorem insidePair_of_glyphs
    (hSize : (utf8 text).length ≤ u32Max)
    (hGlyphs : glyphs text = gs ++ .char c :: hs)
    (hLine : ((⟨0, 0⟩ : Position).across lenUtf16 gs).line = pos.line)
    (hBefore : ((⟨0, 0⟩ : Position).across lenUtf16 gs).character <
      pos.character)
    (hAfter : pos.character <
      ((⟨0, 0⟩ : Position).across lenUtf16 gs).character + lenUtf16 c) :
    InsidePair text pos (glyphChars gs) c (glyphChars hs) := by
  have hText : text = glyphChars gs ++ c :: glyphChars hs := by
    rw [← glyphChars_glyphs text, hGlyphs, glyphChars_append,
      glyphChars_cons]
    rfl
  have hUnits := lenUtf16_cases c
  have hTwo : lenUtf16 c = 2 := by omega
  refine ⟨hText, hTwo, _, offsetToPosition_cut hSize hGlyphs, hLine, ?_⟩
  omega

theorem answers_found
    (hSize : (utf8 text).length ≤ u32Max)
    (pos : Position)
    (hLine : pos.line ≤ breaks text) :
    Answers text pos
      (glyphBytes (glyphsBefore lenUtf16 pos (glyphs text))) := by
  rcases @glyphsBefore_stops lenUtf16 pos (glyphs text) with
    ⟨more, hSplit, hStops⟩
  have hStopped := by
    apply hStops
    rw [Position.across_line, Nat.zero_add]
    exact hLine
  generalize glyphsBefore lenUtf16 pos (glyphs text) = found at *
  refine ⟨_, offsetToPosition_cut hSize hSplit, hStopped.line, ?_, ?_⟩
  · intro a c b hInside
    rcases hInside.glyphs hSize with ⟨hGlyphs, hOnLine, hColumn⟩
    rcases hInside with ⟨-, hTwo, -⟩
    have hFound := hStopped.of_inside lenUtf16_pos
      (hSplit.symm.trans hGlyphs) hOnLine (by omega) (by omega)
    rw [hFound, glyphBytes, glyphChars_append, glyphChars_glyphs]
    rfl
  · intro hNone
    have hNot : ∀ a c b,
        found ++ more = a ++ .char c :: b →
        ((⟨0, 0⟩ : Position).across lenUtf16 a).line = pos.line →
        ((⟨0, 0⟩ : Position).across lenUtf16 a).character <
          pos.character →
        ¬ pos.character <
          ((⟨0, 0⟩ : Position).across lenUtf16 a).character +
            lenUtf16 c := by
      intro a c b hSame hOnLine hBefore hAfter
      exact hNone _ c _ (insidePair_of_glyphs hSize (hSplit.trans hSame)
        hOnLine hBefore hAfter)
    rcases hStopped.last lenUtf16_pos hNot with ⟨hLe, hLast⟩
    refine ⟨hLe, ?_⟩
    intro offset other hAddressable hOther hOnLine hColumn
    rcases addressable_iff.1 hAddressable with ⟨gs, hs, hGlyphs, rfl⟩
    rw [offsetToPosition_cut hSize hGlyphs] at hOther
    cases hOther
    rcases hLast gs hs (hSplit.symm.trans hGlyphs) hOnLine hColumn with
      ⟨rest, rfl⟩
    rw [glyphBytes_append]
    exact Nat.le_add_right _ _

/- On a text that the counters hold, offsets and positions are inverse up
   to the next addressable offset, in order, and every position leads to
   an addressable offset. -/
theorem positions_invert
    (text : List Char)
    (hSize : (utf8 text).length ≤ u32Max) :
    (∀ offset, ∃ pos found,
      offsetToPosition text offset = some pos ∧
        positionToOffset text pos = some found ∧
        IsLeast
          {o | Addressable text o ∧ min offset (utf8 text).length ≤ o}
          found) ∧
      (∀ offset offset',
        Addressable text offset →
        Addressable text offset' →
        offset < offset' →
        ∃ pos pos',
          offsetToPosition text offset = some pos ∧
            offsetToPosition text offset' = some pos' ∧
            pos.Before pos') ∧
      ∀ pos, ∃ found,
        positionToOffset text pos = some found ∧
          Addressable text found ∧
          (pos.line ≤ breaks text → Answers text pos found) := by
  refine ⟨?_, ?_, ?_⟩
  · intro offset
    rcases offsetToPosition_eq hSize offset with
      ⟨gs, hs, hGlyphs, hLeast, hPos⟩
    exact ⟨_, _, hPos, positionToOffset_cut hGlyphs, hLeast⟩
  · intro offset offset' hOffset hOffset' hLt
    rcases addressable_iff.1 hOffset with ⟨gs, hs, hGlyphs, rfl⟩
    rcases addressable_iff.1 hOffset' with ⟨gs', hs', hGlyphs', rfl⟩
    refine ⟨_, _, offsetToPosition_cut hSize hGlyphs,
      offsetToPosition_cut hSize hGlyphs', ?_⟩
    rcases cut_trichotomy (hGlyphs.symm.trans hGlyphs') with
      rfl | ⟨g, more, rfl⟩ | ⟨g, more, rfl⟩
    · exact absurd hLt (Nat.lt_irrefl _)
    · exact Position.before_longer lenUtf16_pos _ gs g more
    · exact absurd (glyphBytes_lt gs' g more) (Nat.lt_asymm hLt)
  · intro pos
    refine ⟨_, positionToOffset_eq text pos, ?_, answers_found hSize pos⟩
    rcases @glyphsBefore_stops lenUtf16 pos (glyphs text) with
      ⟨more, hSplit, -⟩
    exact addressable_iff.2 ⟨_, more, hSplit, rfl⟩

/- An offset between `\r` and `\n` leads behind the pair. -/
theorem positions_invert_crlf :
    ∃ pos found,
      offsetToPosition ['é', '\r', '\n', '🦀'] 3 = some pos ∧
        positionToOffset ['é', '\r', '\n', '🦀'] pos = some found ∧
        IsLeast
          {o | Addressable ['é', '\r', '\n', '🦀'] o ∧
            min 3 (utf8 ['é', '\r', '\n', '🦀']).length ≤ o}
          found :=
  (positions_invert ['é', '\r', '\n', '🦀'] (by decide)).1 3

theorem walkChars_feeds
    {n line column : Nat}
    (hLine : line ≤ u32Max)
    (hPast : u32Max < line + n) :
    walkChars ⟨line, column⟩ (List.replicate n '\n') = none := by
  induction n generalizing line column with
  | zero => omega
  | succ n ih =>
      rw [List.replicate_succ, walkChars]
      by_cases hFits : line + 1 ≤ u32Max
      · rw [addU32_fits hFits, Option.bind_some]
        exact ih hFits (by omega)
      · rw [addU32, if_neg hFits]
        rfl

/- The line counter does not hold `2 ^ 32` line breaks. -/
theorem offset_to_position_overflows :
    offsetToPosition (List.replicate (u32Max + 1) '\n') (u32Max + 1) =
      none := by
  have hLength : (utf8 (List.replicate (u32Max + 1) '\n')).length =
      u32Max + 1 := by
    rw [utf8_replicate (b := 10) (by decide), List.length_replicate]
  have hTake := takeBytes_append
    (a := List.replicate (u32Max + 1) '\n') (b := [])
  rw [List.append_nil, hLength] at hTake
  unfold offsetToPosition
  dsimp only
  rw [hLength, Nat.min_self, snapUp, hLength, if_neg (by omega), snapPair,
    hLength, if_neg (by omega), hTake, Option.bind_some]
  exact walkChars_feeds (Nat.zero_le _) (by omega)

end Lsp

end Borzoi
