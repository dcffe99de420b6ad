import Borzoi.MSBuild.JsonStrip
import Mathlib

/-
  The leaves of the grammar: white space, strings, words and numbers.

  A number must be followed by something that cannot go on with it; every
  other token says itself where it ends.
-/

namespace Borzoi

namespace MSBuild

namespace Json

open Program.Descent

variable {total n cp : Nat} {c : Char} {text rest s : List Char}

theorem isAsciiWhitespace_iff :
    isAsciiWhitespace c = true ↔ IsAsciiSpace c := by
  simp only [isAsciiWhitespace, IsAsciiSpace, IsStandardSpace,
    Bool.or_eq_true, beq_iff_eq]
  tauto

theorem skipWs_space
    (hSpace : isAsciiWhitespace c = true) :
    skipWs (c :: rest) = skipWs rest :=
  List.dropWhile_cons_of_pos hSpace

theorem skipWs_token
    (hSpace : isAsciiWhitespace c = false) :
    skipWs (c :: rest) = c :: rest :=
  List.dropWhile_cons_of_neg (by rw [hSpace]; decide)

theorem skipWs_length
    (text : List Char) :
    (skipWs text).length ≤ text.length :=
  (List.dropWhile_sublist isAsciiWhitespace).length_le

theorem blank_skipWs
    (text : List Char) :
    Blank IsAsciiSpace text (skipWs text) := by
  induction text with
  | nil => exact .done []
  | cons c text ih =>
      by_cases hSpace : isAsciiWhitespace c = true
      · rw [skipWs_space hSpace]
        exact .step (isAsciiWhitespace_iff.1 hSpace) ih
      · rw [skipWs_token (by simpa using hSpace)]
        exact .done _

theorem skipWs_blank
    (hBlank : Blank IsAsciiSpace text rest) :
    skipWs text = skipWs rest := by
  induction hBlank with
  | done => rfl
  | step hSpace _ ih =>
      rw [skipWs_space (isAsciiWhitespace_iff.2 hSpace), ih]

theorem skipWs_skipWs
    (text : List Char) :
    skipWs (skipWs text) = skipWs text :=
  (skipWs_blank (blank_skipWs text)).symm

theorem char_in_range
    {low high : Char}
    (hLow : low ≤ c)
    (hHigh : c ≤ high) :
    ∃ k, k ≤ high.toNat - low.toNat ∧ c.toNat - low.toNat = k ∧
      c = Char.ofNat (low.toNat + k) := by
  have hLow' : low.toNat ≤ c.toNat := hLow
  have hHigh' : c.toNat ≤ high.toNat := hHigh
  refine ⟨c.toNat - low.toNat, by omega, rfl, ?_⟩
  rw [Nat.add_sub_cancel' hLow', Char.ofNat_toNat]

theorem hexDigit_iff
    {v : Nat} :
    hexDigit c = some v ↔ HexValue c v := by
  constructor
  · intro hHex
    unfold hexDigit at hHex
    split at hHex
    · rename_i hRange
      rcases char_in_range hRange.1 hRange.2 with ⟨k, hk, hSub, hChar⟩
      have hTable : ∀ k ≤ 9,
          "0123456789abcdef".toList[k]? = some (Char.ofNat (48 + k)) := by
        decide
      rw [hSub, Option.some_inj] at hHex
      rw [← hHex, hChar]
      exact .inl (hTable k hk)
    · split at hHex
      · rename_i hRange
        rcases char_in_range hRange.1 hRange.2 with ⟨k, hk, hSub, hChar⟩
        have hTable : ∀ k ≤ 5, "0123456789abcdef".toList[10 + k]? =
            some (Char.ofNat (97 + k)) := by
          decide
        rw [hSub, Option.some_inj] at hHex
        rw [← hHex, hChar]
        exact .inl (hTable k hk)
      · split at hHex
        · rename_i hRange
          rcases char_in_range hRange.1 hRange.2 with ⟨k, hk, hSub, hChar⟩
          have hTable : ∀ k ≤ 5, "0123456789ABCDEF".toList[10 + k]? =
              some (Char.ofNat (65 + k)) := by
            decide
          rw [hSub, Option.some_inj] at hHex
          rw [← hHex, hChar]
          exact .inr (hTable k hk)
        · cases hHex
  · have hTables : ∀ v < 16,
        (("0123456789abcdef".toList[v]?).bind hexDigit = some v) ∧
        (("0123456789ABCDEF".toList[v]?).bind hexDigit = some v) := by
      decide
    rintro (hHex | hHex)
    · have hLess := (List.getElem?_eq_some_iff.1 hHex).1
      have hTable := (hTables v hLess).1
      rwa [hHex] at hTable
    · have hLess := (List.getElem?_eq_some_iff.1 hHex).1
      have hTable := (hTables v hLess).2
      rwa [hHex] at hTable

theorem hexValue_small
    {v : Nat}
    (hHex : HexValue c v) :
    v < 2 ^ 4 := by
  rcases hHex with hHex | hHex
  · exact (List.getElem?_eq_some_iff.1 hHex).1
  · exact (List.getElem?_eq_some_iff.1 hHex).1

/- A digit shifted in is one more place. -/
theorem shift_digit
    {acc v : Nat}
    (hSmall : v < 2 ^ 4) :
    acc <<< 4 ||| v = 16 * acc + v := by
  rw [← Nat.shiftLeft_add_eq_or_of_lt hSmall, Nat.shiftLeft_eq]
  omega

theorem readHexDigits_ok
    {acc : Nat} :
    readHexDigits total n acc text = .ok (cp, rest) ↔
      ∃ digits values, digits.length = n ∧
        List.Forall₂ HexValue digits values ∧ text = digits ++ rest ∧
        cp = values.foldl (fun acc v => 16 * acc + v) acc := by
  constructor
  · intro hRead
    fun_induction readHexDigits total n acc text with
    | case1 acc text =>
        cases hRead
        exact ⟨[], [], rfl, .nil, rfl, rfl⟩
    | case2 => cases hRead
    | case3 acc n c tail digit hDigit ih =>
        have hHex := hexDigit_iff.1 hDigit
        rcases ih hRead with ⟨digits, values, rfl, hValues, rfl, hCp⟩
        rw [shift_digit (hexValue_small hHex)] at hCp
        exact ⟨c :: digits, digit :: values, rfl, .cons hHex hValues, rfl,
          hCp⟩
    | case4 => cases hRead
  · rintro ⟨digits, values, hLength, hValues, rfl, hCp⟩
    induction hValues generalizing n acc with
    | nil =>
        cases hLength
        rw [readHexDigits.eq_def, hCp]
        rfl
    | @cons d v digits values hHex _ ih =>
        cases hLength
        rw [List.cons_append, List.length_cons, readHexDigits,
          hexDigit_iff.2 hHex]
        dsimp only
        rw [shift_digit (hexValue_small hHex)]
        exact ih rfl hCp

theorem readUnicodeEscape_ok :
    readUnicodeEscape total text = .ok (cp, rest) ↔
      ∃ digits, HexNumber 4 digits cp ∧ text = digits ++ rest := by
  unfold readUnicodeEscape
  rw [readHexDigits_ok]
  constructor
  · rintro ⟨digits, values, hLength, hValues, hText, hCp⟩
    exact ⟨digits, ⟨hLength, values, hValues, hCp⟩, hText⟩
  · rintro ⟨digits, ⟨hLength, values, hValues, hCp⟩, hText⟩
    exact ⟨digits, values, hLength, hValues, hText, hCp⟩

theorem charFromU32_ok :
    charFromU32 n = some c ↔ c.toNat = n := by
  unfold charFromU32
  split
  · rename_i hValid
    constructor
    · intro hChar
      cases hChar
      rfl
    · rintro rfl
      rfl
  · rename_i hValid
    constructor
    · intro hChar
      cases hChar
    · rintro rfl
      exact absurd c.valid hValid

theorem shift_low
    {high low : Nat}
    (hLow : low < 2 ^ 10) :
    high <<< 10 ||| low = high * 0x400 + low := by
  rw [← Nat.shiftLeft_add_eq_or_of_lt hLow, Nat.shiftLeft_eq]

/- An escape that is no surrogate stands for itself. -/
theorem readSurrogates_single
    (hChar : c.toNat = cp) :
    readSurrogates total cp text = .ok (cp, text) := by
  have hValid : cp.isValidChar := hChar ▸ c.valid
  unfold readSurrogates
  rw [if_neg, if_neg]
  · intro hLow
    rcases hValid with hValid | hValid <;> omega
  · intro hHigh
    rcases hValid with hValid | hValid <;> omega

variable {digits exponent fraction middle whole : List Char} {message : String}

theorem readSurrogates_pair
    {low : Nat}
    (hHigh : 0xD800 ≤ cp ∧ cp ≤ 0xDBFF)
    (hLow : 0xDC00 ≤ low ∧ low ≤ 0xDFFF)
    (hDigits : HexNumber 4 digits low) :
    readSurrogates total cp ('\\' :: 'u' :: (digits ++ rest)) =
      .ok (0x10000 + (cp - 0xD800) * 0x400 + (low - 0xDC00), rest) := by
  have hRead : readUnicodeEscape total (digits ++ rest) = .ok (low, rest) :=
    readUnicodeEscape_ok.2 ⟨digits, hDigits, rfl⟩
  unfold readSurrogates
  rw [if_pos hHigh]
  apply bind_ok.2 ⟨_, expect_ok.2 rfl, ?_⟩
  apply bind_ok.2 ⟨_, expect_ok.2 rfl, ?_⟩
  apply bind_ok.2 ⟨_, hRead, ?_⟩
  dsimp only
  rw [if_pos hLow, shift_low (by omega), Nat.add_assoc]

/- What an escape can have been, by its number. -/
theorem readSurrogates_cases
    {scalar : Nat}
    (hRead : readSurrogates total cp text = .ok (scalar, rest)) :
    (scalar = cp ∧ text = rest) ∨
    ∃ low digits, (0xD800 ≤ cp ∧ cp ≤ 0xDBFF) ∧
      (0xDC00 ≤ low ∧ low ≤ 0xDFFF) ∧ HexNumber 4 digits low ∧
      text = '\\' :: 'u' :: (digits ++ rest) ∧
      scalar = 0x10000 + (cp - 0xD800) * 0x400 + (low - 0xDC00) := by
  unfold readSurrogates at hRead
  split at hRead
  · rename_i hHigh
    rcases bind_ok.1 hRead with ⟨text₁, hFirst, hRead⟩
    rcases bind_ok.1 hRead with ⟨text₂, hSecond, hRead⟩
    rcases bind_ok.1 hRead with ⟨⟨low, text₃⟩, hLow, hRead⟩
    rcases readUnicodeEscape_ok.1 hLow with ⟨digits, hDigits, hText⟩
    dsimp only at hRead
    split at hRead
    · rename_i hRange
      cases hRead
      refine .inr ⟨low, digits, hHigh, hRange, hDigits, ?_, ?_⟩
      · rw [expect_ok.1 hFirst, expect_ok.1 hSecond, hText]
      · rw [shift_low (by omega), Nat.add_assoc]
    · cases hRead
  · split at hRead
    · cases hRead
    · cases hRead
      exact .inl ⟨rfl, rfl⟩

theorem readScalar_parts :
    readScalar total text = .ok (c, rest) ↔
      ∃ cp middle, readUnicodeEscape total text = .ok (cp, middle) ∧
        readSurrogates total cp middle = .ok (c.toNat, rest) := by
  unfold readScalar
  rw [bind_ok]
  constructor
  · rintro ⟨⟨cp, middle⟩, hCp, hRead⟩
    rcases bind_ok.1 hRead with ⟨⟨scalar, rest'⟩, hScalar, hRead⟩
    dsimp only at hRead
    split at hRead
    · rename_i d hChar
      cases hRead
      refine ⟨cp, middle, hCp, ?_⟩
      rw [charFromU32_ok.1 hChar]
      exact hScalar
    · cases hRead
  · rintro ⟨cp, middle, hCp, hScalar⟩
    refine ⟨(cp, middle), hCp, bind_ok.2 ⟨(c.toNat, rest), hScalar, ?_⟩⟩
    have hChar : charFromU32 c.toNat = some c := charFromU32_ok.2 rfl
    dsimp only
    rw [hChar]

theorem readScalar_ok :
    readScalar total text = .ok (c, rest) ↔
      (∃ digits, HexNumber 4 digits c.toNat ∧ text = digits ++ rest) ∨
      ∃ high low digits digits', HexNumber 4 digits high ∧
        HexNumber 4 digits' low ∧ (0xD800 ≤ high ∧ high ≤ 0xDBFF) ∧
        (0xDC00 ≤ low ∧ low ≤ 0xDFFF) ∧
        c.toNat = 0x10000 + (high - 0xD800) * 0x400 + (low - 0xDC00) ∧
        text = digits ++ '\\' :: 'u' :: (digits' ++ rest) := by
  rw [readScalar_parts]
  constructor
  · rintro ⟨cp, middle, hCp, hScalar⟩
    rcases readUnicodeEscape_ok.1 hCp with ⟨digits, hDigits, hText⟩
    rcases readSurrogates_cases hScalar with ⟨hEq, hRest⟩ |
      ⟨low, digits', hHigh, hLow, hDigits', hRest, hEq⟩
    · rw [← hEq] at hDigits
      rw [hRest] at hText
      exact .inl ⟨digits, hDigits, hText⟩
    · rw [hRest] at hText
      exact .inr ⟨cp, low, digits, digits', hDigits, hDigits', hHigh, hLow,
        hEq, hText⟩
  · rintro (⟨digits, hDigits, hText⟩ |
      ⟨high, low, digits, digits', hDigits, hDigits', hHigh, hLow, hChar,
        hText⟩)
    · exact ⟨c.toNat, rest, readUnicodeEscape_ok.2 ⟨digits, hDigits, hText⟩,
        readSurrogates_single rfl⟩
    · refine ⟨high, _, readUnicodeEscape_ok.2 ⟨digits, hDigits, hText⟩, ?_⟩
      rw [hChar]
      exact readSurrogates_pair hHigh hLow hDigits'

theorem simpleEscape_iff
    {d : Char} :
    simpleEscape c = some d ↔ SimpleEscape c d := by
  constructor
  · intro hEscape
    unfold simpleEscape at hEscape
    split at hEscape <;> cases hEscape <;> simp [SimpleEscape]
  · intro hEscape
    simp only [SimpleEscape, List.mem_cons, Prod.mk.injEq,
      List.not_mem_nil, or_false] at hEscape
    rcases hEscape with ⟨rfl, rfl⟩ | ⟨rfl, rfl⟩ | ⟨rfl, rfl⟩ | ⟨rfl, rfl⟩ |
      ⟨rfl, rfl⟩ | ⟨rfl, rfl⟩ | ⟨rfl, rfl⟩ | ⟨rfl, rfl⟩ <;> rfl

theorem parseEscape_ok :
    parseEscape total text = .ok (c, rest) ↔
      (∃ e, SimpleEscape e c ∧ text = e :: rest) ∨
      ∃ tail, text = 'u' :: tail ∧
        readScalar total tail = .ok (c, rest) := by
  cases text with
  | nil =>
      constructor
      · intro hEscape
        cases hEscape
      · rintro (⟨e, _, hText⟩ | ⟨tail, hText, _⟩) <;> cases hText
  | cons e tail =>
      rw [parseEscape]
      constructor
      · intro hEscape
        split at hEscape
        · rename_i d hSimple
          cases hEscape
          exact .inl ⟨e, simpleEscape_iff.1 hSimple, rfl⟩
        · split at hEscape
          · rename_i hU
            exact .inr ⟨tail, by rw [hU], hEscape⟩
          · cases hEscape
      · rintro (⟨e', hSimple, hText⟩ | ⟨tail', hText, hScalar⟩)
        · cases hText
          rw [simpleEscape_iff.2 hSimple]
        · cases hText
          have hNone : simpleEscape 'u' = none := rfl
          rw [hNone]
          dsimp only
          rw [if_pos rfl, hScalar]

theorem stringStep_escape :
    stringStep total ('\\' :: text) =
      (fun (d, rest) => (some d, rest)) <$> parseEscape total text := by
  rw [stringStep, if_neg (by decide), if_pos rfl]

theorem stringLoop_close :
    stringLoop total ('"' :: rest) = .ok ([], rest) := by
  have hStep : stringStep total ('"' :: rest) = .ok (none, rest) := by
    rw [stringStep, if_pos rfl]
  rw [stringLoop.eq_def]
  split
  · rename_i hFault
    rw [hStep] at hFault
    cases hFault
  · rename_i hNone
    rw [hStep] at hNone
    cases hNone
    rfl
  · rename_i hSome
    rw [hStep] at hSome
    cases hSome

theorem stringLoop_step
    (hStep : stringStep total text = .ok (some c, middle))
    (hLoop : stringLoop total middle = .ok (s, rest)) :
    stringLoop total text = .ok (c :: s, rest) := by
  rw [stringLoop.eq_def]
  split
  · rename_i hFault
    rw [hStep] at hFault
    cases hFault
  · rename_i hNone
    rw [hStep] at hNone
    cases hNone
  · rename_i d middle' hSome
    rw [hStep] at hSome
    cases hSome
    rw [hLoop]
    rfl

theorem stringLoop_escape
    (hEscape : parseEscape total text = .ok (c, middle))
    (hLoop : stringLoop total middle = .ok (s, rest)) :
    stringLoop total ('\\' :: text) = .ok (c :: s, rest) := by
  apply stringLoop_step _ hLoop
  rw [stringStep_escape, hEscape]
  rfl

/- One turn goes on with one part of the body. -/
theorem stringStep_body
    (hStep : stringStep total text = .ok (some c, rest))
    {stop : List Char}
    (hBody : StringBody s rest stop) :
    StringBody (c :: s) text stop := by
  cases text with
  | nil => cases hStep
  | cons d tail =>
      rw [stringStep] at hStep
      split at hStep
      · cases hStep
      · rename_i hQuote
        split at hStep
        · rename_i hBackslash
          subst hBackslash
          rcases map_ok.1 hStep with ⟨⟨d, rest'⟩, hEscape, hEq⟩
          cases hEq
          rcases parseEscape_ok.1 hEscape with ⟨e, hSimple, rfl⟩ |
            ⟨tail', rfl, hScalar⟩
          · exact .escape hSimple hBody
          · rcases readScalar_ok.1 hScalar with ⟨digits, hDigits, rfl⟩ |
              ⟨high, low, digits, digits', hDigits, hDigits', hHigh, hLow,
                hChar, rfl⟩
            · exact .unicode hDigits hBody
            · exact .surrogates hDigits hDigits' hHigh hLow hChar hBody
        · rename_i hBackslash
          split at hStep
          · cases hStep
          · rename_i hControl
            cases hStep
            exact .plain (Nat.le_of_not_lt hControl) hQuote hBackslash hBody

theorem stringLoop_ok :
    stringLoop total text = .ok (s, rest) ↔ StringBody s text rest := by
  constructor
  · intro hLoop
    fun_induction stringLoop total text generalizing s rest with
    | case1 => cases hLoop
    | case2 text rest' hStep =>
        cases hLoop
        cases text with
        | nil => cases hStep
        | cons d tail =>
            rw [stringStep] at hStep
            split at hStep
            · rename_i hQuote
              cases hStep
              rw [hQuote]
              exact .close _
            · split at hStep
              · rcases map_ok.1 hStep with ⟨_, _, hEq⟩
                cases hEq
              · split at hStep <;> cases hStep
    | case3 text c rest' hStep ih =>
        rcases map_ok.1 hLoop with ⟨⟨s', rest''⟩, hMore, hEq⟩
        cases hEq
        exact stringStep_body hStep (ih hMore)
  · intro hBody
    induction hBody with
    | close rest => exact stringLoop_close
    | plain hControl hQuote hBackslash _ ih =>
        apply stringLoop_step _ ih
        rw [stringStep, if_neg hQuote, if_neg hBackslash,
          if_neg (Nat.not_lt_of_le hControl)]
    | escape hSimple _ ih =>
        exact stringLoop_escape (parseEscape_ok.2 (.inl ⟨_, hSimple, rfl⟩)) ih
    | unicode hDigits _ ih =>
        apply stringLoop_escape _ ih
        apply parseEscape_ok.2 (.inr ⟨_, rfl, ?_⟩)
        exact readScalar_ok.2 (.inl ⟨_, hDigits, rfl⟩)
    | surrogates hDigits hDigits' hHigh hLow hChar _ ih =>
        apply stringLoop_escape _ ih
        apply parseEscape_ok.2 (.inr ⟨_, rfl, ?_⟩)
        exact readScalar_ok.2 (.inr
          ⟨_, _, _, _, hDigits, hDigits', hHigh, hLow, hChar, rfl⟩)

theorem parseString_ok :
    parseString total text = .ok (s, rest) ↔
      ∃ body, text = '"' :: body ∧ StringBody s body rest := by
  unfold parseString
  rw [bind_ok]
  constructor
  · rintro ⟨body, hQuote, hLoop⟩
    exact ⟨body, expect_ok.1 hQuote, stringLoop_ok.1 hLoop⟩
  · rintro ⟨body, hText, hBody⟩
    exact ⟨body, expect_ok.2 hText, stringLoop_ok.2 hBody⟩

------------------------------------------------------------
-- Words
------------------------------------------------------------

theorem afterWord_ok
    {word : List Char} :
    afterWord word text = some rest ↔ text = word ++ rest := by
  unfold afterWord
  split
  · rename_i hStarts
    rcases List.isPrefixOf_iff_prefix.1 hStarts with ⟨tail, rfl⟩
    rw [List.drop_left, Option.some_inj, List.append_cancel_left_eq]
  · rename_i hNot
    constructor
    · intro hAfter
      cases hAfter
    · rintro rfl
      exact absurd (List.isPrefixOf_iff_prefix.2 (List.prefix_append word rest))
        hNot

theorem parseBool_ok
    {b : Bool} :
    parseBool total text = .ok (b, rest) ↔
      ∃ word, Word (.Bool b) word ∧ text = word ++ rest := by
  unfold parseBool
  constructor
  · intro hParse
    split at hParse
    · rename_i hTrue
      cases hParse
      exact ⟨_, .true, afterWord_ok.1 hTrue⟩
    · rename_i hFalse
      cases hParse
      exact ⟨_, .false, afterWord_ok.1 hFalse⟩
    · cases hParse
  · rintro ⟨word, hWord, hText⟩
    cases hWord with
    | true => rw [afterWord_ok.2 hText]
    | false =>
        have hTrue : afterWord "true".toList text = none := by
          rw [hText]
          rfl
        rw [hTrue, afterWord_ok.2 hText]

theorem parseNull_ok :
    parseNull total text = .ok rest ↔ text = "null".toList ++ rest := by
  unfold parseNull
  constructor
  · intro hParse
    split at hParse
    · rename_i hNull
      cases hParse
      exact afterWord_ok.1 hNull
    · cases hParse
  · intro hText
    rw [afterWord_ok.2 hText]

/- Nothing here goes on with a number. -/
def Stops
    (text : List Char) :
    Prop :=
  ∀ c tail, text = c :: tail →
    c.isDigit = false ∧ c ≠ '.' ∧ c ≠ 'e' ∧ c ≠ 'E'

def NoDigit
    (text : List Char) :
    Prop :=
  ∀ c tail, text = c :: tail → c.isDigit = false

theorem Stops.noDigit
    (hStops : Stops text) :
    NoDigit text := fun c tail hText =>
  (hStops c tail hText).1

theorem noDigit_cons
    (hDigit : c.isDigit = false) :
    NoDigit (c :: rest) := by
  intro d tail hText
  cases hText
  exact hDigit

theorem skipDigits_sound
    (text : List Char) :
    ∃ digits, (∀ c ∈ digits, c.isDigit = true) ∧
      text = digits ++ skipDigits text :=
  ⟨text.takeWhile Char.isDigit, fun _ hc => List.mem_takeWhile_imp hc,
    (List.takeWhile_append_dropWhile).symm⟩

theorem skipDigits_complete
    (hDigits : ∀ c ∈ digits, c.isDigit = true)
    (hNoDigit : NoDigit rest) :
    skipDigits (digits ++ rest) = rest := by
  unfold skipDigits
  rw [List.dropWhile_append_of_pos hDigits]
  cases rest with
  | nil => rfl
  | cons c tail =>
      apply List.dropWhile_cons_of_neg
      rw [hNoDigit c tail rfl]
      decide

theorem parseDigits_sound
    (hParse : parseDigits total message text = .ok rest) :
    ∃ digits, Digits digits ∧ text = digits ++ rest := by
  unfold parseDigits at hParse
  split at hParse
  · cases hParse
  · rename_i hSome
    cases hParse
    rcases skipDigits_sound text with ⟨digits, hDigits, hText⟩
    refine ⟨digits, ⟨?_, hDigits⟩, hText⟩
    intro hNil
    rw [hNil, List.nil_append] at hText
    exact hSome (congrArg List.length hText.symm)

theorem parseDigits_complete
    (hDigits : Digits digits)
    (hNoDigit : NoDigit rest) :
    parseDigits total message (digits ++ rest) = .ok rest := by
  unfold parseDigits
  rw [skipDigits_complete hDigits.2 hNoDigit, if_neg]
  have hPos := List.length_pos_iff.2 hDigits.1
  rw [List.length_append]
  omega

theorem skipSign_sound
    (isSign : Char → Bool)
    (text : List Char) :
    ∃ sign, (sign = [] ∨ ∃ c, isSign c = true ∧ sign = [c]) ∧
      text = sign ++ skipSign isSign text := by
  cases text with
  | nil => exact ⟨[], .inl rfl, rfl⟩
  | cons c rest =>
      rw [skipSign]
      split
      · rename_i hSign
        exact ⟨[c], .inr ⟨c, hSign, rfl⟩, rfl⟩
      · exact ⟨[], .inl rfl, rfl⟩

/- A sign is skipped, and digits are no sign. -/
theorem skipSign_complete
    {isSign : Char → Bool}
    {sign : List Char}
    (hSign : sign = [] ∨ ∃ c, isSign c = true ∧ sign = [c])
    (hText : ∀ c tail, text = c :: tail → isSign c = false) :
    skipSign isSign (sign ++ text) = text := by
  rcases hSign with rfl | ⟨c, hSign, rfl⟩
  · rw [List.nil_append]
    cases text with
    | nil => rfl
    | cons c tail =>
        rw [skipSign, hText c tail rfl]
        rfl
  · rw [List.singleton_append, skipSign, if_pos hSign]

theorem parseWhole_sound
    (hParse : parseWhole total text = .ok rest) :
    ∃ whole, WholeForm whole ∧ text = whole ++ rest := by
  cases text with
  | nil => cases hParse
  | cons c tail =>
      rw [parseWhole] at hParse
      split at hParse
      · rename_i hZero
        cases hParse
        exact ⟨['0'], .inl rfl, by rw [hZero]; rfl⟩
      · rename_i hZero
        split at hParse
        · rename_i hDigit
          cases hParse
          rcases skipDigits_sound tail with ⟨digits, hDigits, hTail⟩
          refine ⟨c :: digits, .inr ⟨⟨List.cons_ne_nil c digits, ?_⟩, ?_⟩, ?_⟩
          · intro d hd
            rcases List.mem_cons.1 hd with rfl | hd
            · exact hDigit
            · exact hDigits d hd
          · intro hHead
            exact hZero (Option.some.inj hHead)
          · rw [List.cons_append, ← hTail]
        · cases hParse

theorem parseWhole_complete
    (hWhole : WholeForm whole)
    (hNoDigit : NoDigit rest) :
    parseWhole total (whole ++ rest) = .ok rest := by
  rcases hWhole with rfl | ⟨hDigits, hZero⟩
  · rw [List.singleton_append, parseWhole, if_pos rfl]
  · cases whole with
    | nil => exact absurd rfl hDigits.1
    | cons c digits =>
        have hNotZero : c ≠ '0' := fun hEq => hZero (by rw [hEq]; rfl)
        rw [List.cons_append, parseWhole, if_neg hNotZero,
          if_pos (hDigits.2 c List.mem_cons_self),
          skipDigits_complete
            (fun d hd => hDigits.2 d (List.mem_cons_of_mem c hd)) hNoDigit]

theorem parseFraction_sound
    (hParse : parseFraction total text = .ok rest) :
    ∃ fraction, FractionForm fraction ∧ text = fraction ++ rest := by
  unfold parseFraction at hParse
  split at hParse
  · rcases parseDigits_sound hParse with ⟨digits, hDigits, rfl⟩
    exact ⟨'.' :: digits, .inr ⟨digits, hDigits, rfl⟩, rfl⟩
  · cases hParse
    exact ⟨[], .inl rfl, rfl⟩

theorem parseFraction_complete
    (hFraction : FractionForm fraction)
    (hNoDigit : NoDigit rest)
    (hNoPoint : ∀ tail, rest ≠ '.' :: tail) :
    parseFraction total (fraction ++ rest) = .ok rest := by
  rcases hFraction with rfl | ⟨digits, hDigits, rfl⟩
  · rw [List.nil_append, parseFraction.eq_def]
    split
    · rename_i tail
      exact absurd rfl (hNoPoint tail)
    · rfl
  · rw [List.cons_append, parseFraction]
    exact parseDigits_complete hDigits hNoDigit

theorem parseExponent_sound
    (hParse : parseExponent total text = .ok rest) :
    ∃ exponent, ExponentForm exponent ∧ text = exponent ++ rest := by
  cases text with
  | nil =>
      cases hParse
      exact ⟨[], .inl rfl, rfl⟩
  | cons e tail =>
      rw [parseExponent] at hParse
      split at hParse
      · rename_i hE
        rcases parseDigits_sound hParse with ⟨digits, hDigits, hTail⟩
        rcases skipSign_sound (fun c => c == '+' || c == '-') tail with
          ⟨sign, hSign, hSplit⟩
        rw [hTail] at hSplit
        refine ⟨e :: (sign ++ digits),
          .inr ⟨e, sign, digits, hE, ?_, hDigits, rfl⟩, ?_⟩
        · rcases hSign with rfl | ⟨c, hSign, rfl⟩
          · exact .inl rfl
          · rcases Bool.or_eq_true_iff.1 hSign with hSign | hSign
            · exact .inr (.inl (by rw [beq_iff_eq.1 hSign]))
            · exact .inr (.inr (by rw [beq_iff_eq.1 hSign]))
        · rw [hSplit, List.cons_append, List.append_assoc]
      · cases hParse
        exact ⟨[], .inl rfl, rfl⟩

theorem parseExponent_complete
    (hExponent : ExponentForm exponent)
    (hStops : Stops rest) :
    parseExponent total (exponent ++ rest) = .ok rest := by
  rcases hExponent with rfl | ⟨e, sign, digits, hE, hSign, hDigits, rfl⟩
  · rw [List.nil_append]
    cases rest with
    | nil => rfl
    | cons c tail =>
        have hNot := hStops c tail rfl
        rw [parseExponent, if_neg]
        rintro (hE | hE)
        · exact hNot.2.2.1 hE
        · exact hNot.2.2.2 hE
  · rw [List.cons_append, List.append_assoc, parseExponent, if_pos hE,
      skipSign_complete]
    · exact parseDigits_complete hDigits hStops.noDigit
    · rcases hSign with rfl | rfl | rfl
      · exact .inl rfl
      · exact .inr ⟨'+', rfl, rfl⟩
      · exact .inr ⟨'-', rfl, rfl⟩
    · intro c tail hText
      cases digits with
      | nil => exact absurd rfl hDigits.1
      | cons d digits =>
          cases hText
          have hDigit := hDigits.2 c List.mem_cons_self
          by_cases hPlus : c = '+'
          · subst hPlus
            exact absurd hDigit (by decide)
          · by_cases hMinus : c = '-'
            · subst hMinus
              exact absurd hDigit (by decide)
            · simp [hPlus, hMinus]

theorem parseNumber_sound
    (hParse : parseNumber total text = .ok rest) :
    ∃ number, NumberForm number ∧ text = number ++ rest := by
  unfold parseNumber at hParse
  rcases bind_ok.1 hParse with ⟨text₁, hWhole, hParse⟩
  rcases bind_ok.1 hParse with ⟨text₂, hFraction, hExponent⟩
  rcases skipSign_sound (· == '-') text with ⟨sign, hSign, hText⟩
  rcases parseWhole_sound hWhole with ⟨whole, hWholeForm, hText₁⟩
  rcases parseFraction_sound hFraction with ⟨fraction, hFractionForm, rfl⟩
  rcases parseExponent_sound hExponent with ⟨exponent, hExponentForm, rfl⟩
  refine ⟨sign ++ (whole ++ (fraction ++ exponent)),
    ⟨sign, whole, fraction, exponent, ?_, hWholeForm, hFractionForm,
      hExponentForm, rfl⟩, ?_⟩
  · rcases hSign with hSign | ⟨c, hSign, hEq⟩
    · exact .inl hSign
    · rw [beq_iff_eq] at hSign
      rw [hSign] at hEq
      exact .inr hEq
  · rw [hText, hText₁]
    simp only [List.append_assoc]

/- What follows the integer part or the fraction goes on with no digit. -/
theorem exponent_noDigit
    (hExponent : ExponentForm exponent)
    (hStops : Stops rest) :
    NoDigit (exponent ++ rest) ∧
      ∀ tail, exponent ++ rest ≠ '.' :: tail := by
  rcases hExponent with rfl | ⟨e, sign, digits, hE, _, _, rfl⟩
  · refine ⟨hStops.noDigit, ?_⟩
    intro tail hText
    exact (hStops '.' tail hText).2.1 rfl
  · constructor
    · apply noDigit_cons
      rcases hE with rfl | rfl <;> decide
    · intro tail hText
      cases hText
      rcases hE with hE | hE <;> exact absurd hE (by decide)

theorem fraction_noDigit
    (hFraction : FractionForm fraction)
    (hNoDigit : NoDigit rest) :
    NoDigit (fraction ++ rest) := by
  rcases hFraction with rfl | ⟨digits, _, rfl⟩
  · exact hNoDigit
  · exact noDigit_cons (by decide)

theorem whole_no_sign
    (hWhole : WholeForm whole) :
    ∀ c tail, whole ++ rest = c :: tail → c.isDigit = true := by
  intro c tail hText
  rcases hWhole with rfl | ⟨hDigits, _⟩
  · cases hText
    decide
  · cases whole with
    | nil => exact absurd rfl hDigits.1
    | cons d digits =>
        cases hText
        exact hDigits.2 c List.mem_cons_self

theorem parseNumber_complete
    {number : List Char}
    (hNumber : NumberForm number)
    (hStops : Stops rest) :
    parseNumber total (number ++ rest) = .ok rest := by
  rcases hNumber with ⟨sign, whole, fraction, exponent, hSign, hWhole,
    hFraction, hExponent, rfl⟩
  rcases exponent_noDigit hExponent hStops with ⟨hNoDigit, hNoPoint⟩
  have hSkip : skipSign (· == '-')
      (sign ++ (whole ++ (fraction ++ (exponent ++ rest)))) =
        whole ++ (fraction ++ (exponent ++ rest)) := by
    apply skipSign_complete
    · rcases hSign with rfl | rfl
      · exact .inl rfl
      · exact .inr ⟨'-', rfl, rfl⟩
    · intro c tail hText
      have hDigit := whole_no_sign hWhole c tail hText
      by_cases hMinus : c = '-'
      · subst hMinus
        exact absurd hDigit (by decide)
      · simp [hMinus]
  unfold parseNumber
  simp only [List.append_assoc]
  rw [hSkip, parseWhole_complete hWhole (fraction_noDigit hFraction hNoDigit)]
  apply bind_ok.2 ⟨_, parseFraction_complete hFraction hNoDigit hNoPoint, ?_⟩
  exact parseExponent_complete hExponent hStops

end Json

end MSBuild

end Borzoi
