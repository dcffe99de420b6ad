import Borzoi.MSBuild.JsonScan

/-
  The parser accepts the spellings of a value, and nothing else.

  Main declarations:
    * `parser_sound`
    * `reads_accepted`
    * `parser_leaves`
    * `jsonc_parsed_exactly`
-/

namespace Borzoi

namespace MSBuild

namespace Json

open Program.Descent

variable {total fuel : Nat} {c : Char} {text rest : List Char} {v : JsonValue}

theorem parseValue_skipWs
    (text : List Char) :
    parseValue total fuel (skipWs text) = parseValue total fuel text := by
  cases fuel with
  | zero => rw [parseValue, parseValue]
  | succ fuel => rw [parseValue, parseValue, skipWs_skipWs]

theorem arrayLoop_skipWs
    (text : List Char) :
    arrayLoop total fuel (skipWs text) = arrayLoop total fuel text := by
  cases fuel with
  | zero => rw [arrayLoop, arrayLoop]
  | succ fuel => rw [arrayLoop, arrayLoop, parseValue_skipWs]

theorem objectLoop_skipWs
    (text : List Char) :
    objectLoop total fuel (skipWs text) = objectLoop total fuel text := by
  cases fuel with
  | zero => rw [objectLoop, objectLoop]
  | succ fuel => rw [objectLoop, objectLoop, skipWs_skipWs]

/- A parser that skips white space does not see a gap. -/
theorem parseValue_blank
    {text' : List Char}
    (hBlank : Blank IsAsciiSpace text text') :
    parseValue total fuel text = parseValue total fuel text' := by
  rw [← parseValue_skipWs text, skipWs_blank hBlank, parseValue_skipWs]

/- What the parsers with this much fuel accept is spelled that way. -/
structure Sound
    (total fuel : Nat) :
    Prop where
  value : ∀ {text v rest}, parseValue total fuel text = .ok (v, rest) →
    Reads (Blank IsAsciiSpace) (.value v) (skipWs text) rest
  object : ∀ {text fields rest},
    parseObject total fuel text = .ok (fields, rest) →
    Reads (Blank IsAsciiSpace) (.value (.Object fields)) ('{' :: text) rest
  objectLoop : ∀ {text fields rest},
    objectLoop total fuel text = .ok (fields, rest) →
    Reads (Blank IsAsciiSpace) (.members fields) text ('}' :: rest)
  array : ∀ {text items rest},
    parseArray total fuel text = .ok (items, rest) →
    Reads (Blank IsAsciiSpace) (.value (.Array items)) ('[' :: text) rest
  arrayLoop : ∀ {text items rest},
    arrayLoop total fuel text = .ok (items, rest) →
    Reads (Blank IsAsciiSpace) (.elements items) text (']' :: rest)

theorem sound_zero :
    Sound total 0 where
  value := by
    intro text v rest hParse
    rw [parseValue] at hParse
    cases hParse
  object := by
    intro text fields rest hParse
    rw [parseObject] at hParse
    cases hParse
  objectLoop := by
    intro text fields rest hParse
    rw [Json.objectLoop] at hParse
    cases hParse
  array := by
    intro text items rest hParse
    rw [parseArray] at hParse
    cases hParse
  arrayLoop := by
    intro text items rest hParse
    rw [Json.arrayLoop] at hParse
    cases hParse

theorem parseValue_sound
    (hSound : Sound total fuel)
    (hParse : parseValue total (fuel + 1) text = .ok (v, rest)) :
    Reads (Blank IsAsciiSpace) (.value v) (skipWs text) rest := by
  rw [parseValue] at hParse
  cases hText : skipWs text with
  | nil =>
      rw [hText] at hParse
      cases hParse
  | cons c tail =>
      rw [hText] at hParse
      dsimp only at hParse
      split at hParse
      · rename_i hBrace
        rcases map_ok.1 hParse with ⟨⟨fields, rest'⟩, hObject, hEq⟩
        cases hEq
        rw [hBrace]
        exact hSound.object hObject
      split at hParse
      · rename_i hBracket
        rcases map_ok.1 hParse with ⟨⟨items, rest'⟩, hArray, hEq⟩
        cases hEq
        rw [hBracket]
        exact hSound.array hArray
      split at hParse
      · rcases map_ok.1 hParse with ⟨⟨s, rest'⟩, hString, hEq⟩
        cases hEq
        rcases parseString_ok.1 hString with ⟨body, hQuote, hBody⟩
        rw [hQuote]
        exact .string hBody
      split at hParse
      · rcases map_ok.1 hParse with ⟨⟨b, rest'⟩, hBool, hEq⟩
        cases hEq
        rcases parseBool_ok.1 hBool with ⟨word, hWord, hEq⟩
        rw [hEq]
        exact .word hWord
      split at hParse
      · rcases map_ok.1 hParse with ⟨rest', hNull, hEq⟩
        cases hEq
        rw [parseNull_ok.1 hNull]
        exact .word .null
      split at hParse
      · rcases map_ok.1 hParse with ⟨rest', hNumber, hEq⟩
        cases hEq
        rcases parseNumber_sound hNumber with ⟨number, hForm, hEq⟩
        rw [hEq]
        exact .word (.number hForm)
      · cases hParse

variable {fields : List (List Char × JsonValue)}
variable {out s stop tail word : List Char} {items : List JsonValue}
variable {piece : Piece} {α : Type} {left : α → List Char}

/- A value between white space. -/
theorem item_sound
    (hValue : Reads (Blank IsAsciiSpace) (.value v) (skipWs text) stop)
    (hStop : skipWs stop = rest) :
    Reads (Blank IsAsciiSpace) (.item v) text rest :=
  .item (blank_skipWs text) hValue (hStop ▸ blank_skipWs stop)

theorem objectLoop_sound
    (hSound : Sound total fuel)
    (hParse : objectLoop total (fuel + 1) text = .ok (fields, rest)) :
    Reads (Blank IsAsciiSpace) (.members fields) text ('}' :: rest) := by
  rw [objectLoop] at hParse
  rcases bind_ok.1 hParse with ⟨⟨key, text₁⟩, hKey, hParse⟩
  rcases bind_ok.1 hParse with ⟨text₂, hColon, hParse⟩
  rcases bind_ok.1 hParse with ⟨⟨value, text₃⟩, hValue, hParse⟩
  rcases parseString_ok.1 hKey with ⟨body, hQuote, hBody⟩
  have hBefore := blank_skipWs text
  rw [hQuote] at hBefore
  have hAfter := blank_skipWs text₁
  rw [expect_ok.1 hColon] at hAfter
  have hField : ∀ {stop}, skipWs text₃ = stop →
      Reads (Blank IsAsciiSpace) (.field key value) text stop := by
    intro stop hStop
    exact .field hBefore hBody hAfter (item_sound (hSound.value hValue) hStop)
  dsimp only at hParse
  split at hParse
  · cases hParse
  · rename_i c tail hText
    split at hParse
    · rename_i hComma
      rcases map_ok.1 hParse with ⟨⟨more, rest'⟩, hMore, hEq⟩
      cases hEq
      rw [hComma] at hText
      exact .moreMembers (hField hText) (hSound.objectLoop hMore)
    · split at hParse
      · rename_i hBrace
        cases hParse
        rw [hBrace] at hText
        exact .lastMember (hField hText)
      · cases hParse

theorem arrayLoop_sound
    (hSound : Sound total fuel)
    (hParse : arrayLoop total (fuel + 1) text = .ok (items, rest)) :
    Reads (Blank IsAsciiSpace) (.elements items) text (']' :: rest) := by
  rw [arrayLoop] at hParse
  rcases bind_ok.1 hParse with ⟨⟨value, text₁⟩, hValue, hParse⟩
  have hItem : ∀ {stop}, skipWs text₁ = stop →
      Reads (Blank IsAsciiSpace) (.item value) text stop :=
    fun hStop => item_sound (hSound.value hValue) hStop
  dsimp only at hParse
  split at hParse
  · cases hParse
  · rename_i c tail hText
    split at hParse
    · rename_i hComma
      rcases map_ok.1 hParse with ⟨⟨more, rest'⟩, hMore, hEq⟩
      cases hEq
      rw [hComma] at hText
      exact .moreElements (hItem hText) (hSound.arrayLoop hMore)
    · split at hParse
      · rename_i hBracket
        cases hParse
        rw [hBracket] at hText
        exact .lastElement (hItem hText)
      · cases hParse

theorem sound_succ
    (hSound : Sound total fuel) :
    Sound total (fuel + 1) where
  value := parseValue_sound hSound
  object := by
    intro text fields rest hParse
    rw [parseObject] at hParse
    split at hParse
    · rename_i tail hText
      cases hParse
      apply Reads.emptyObject
      rw [← hText]
      exact blank_skipWs text
    · rw [objectLoop_skipWs] at hParse
      exact .object (hSound.objectLoop hParse)
  objectLoop := objectLoop_sound hSound
  array := by
    intro text items rest hParse
    rw [parseArray] at hParse
    split at hParse
    · rename_i tail hText
      cases hParse
      apply Reads.emptyArray
      rw [← hText]
      exact blank_skipWs text
    · rw [arrayLoop_skipWs] at hParse
      exact .array (hSound.arrayLoop hParse)
  arrayLoop := arrayLoop_sound hSound

theorem parser_sound
    (total fuel : Nat) :
    Sound total fuel := by
  induction fuel with
  | zero => exact sound_zero
  | succ fuel ih => exact sound_succ ih

------------------------------------------------------------
-- Completeness
------------------------------------------------------------

theorem blank_length
    (hBlank : Blank IsAsciiSpace text rest) :
    rest.length ≤ text.length := by
  induction hBlank with
  | done => exact Nat.le_refl _
  | step _ _ ih => exact Nat.le_succ_of_le ih

theorem body_length
    (hBody : StringBody s text rest) :
    rest.length ≤ text.length := by
  induction hBody <;> simp only [List.length_cons, List.length_append] <;>
    omega

theorem reads_length
    (hReads : Reads (Blank IsAsciiSpace) piece text rest) :
    rest.length ≤ text.length := by
  induction hReads with
  | word => rw [List.length_append]; omega
  | string hBody =>
      have hLe := body_length hBody
      rw [List.length_cons]
      omega
  | emptyArray hGap =>
      have hLe := blank_length hGap
      simp only [List.length_cons] at *
      omega
  | emptyObject hGap =>
      have hLe := blank_length hGap
      simp only [List.length_cons] at *
      omega
  | item hBefore _ hAfter ih =>
      have hLe := blank_length hBefore
      have hLe' := blank_length hAfter
      omega
  | field hBefore hKey hColon _ ih =>
      have hLe := blank_length hBefore
      have hLe' := body_length hKey
      have hLe'' := blank_length hColon
      simp only [List.length_cons] at *
      omega
  | array _ ih => simp only [List.length_cons] at *; omega
  | object _ ih => simp only [List.length_cons] at *; omega
  | lastElement _ ih => exact ih
  | lastMember _ ih => exact ih
  | moreElements _ _ ih ih' => simp only [List.length_cons] at *; omega
  | moreMembers _ _ ih ih' => simp only [List.length_cons] at *; omega

/- What stands behind a value, once white space is skipped. -/
def Closes
    (text : List Char) :
    Prop :=
  ∀ c tail, text = c :: tail → c = ',' ∨ c = ']' ∨ c = '}'

theorem closes_cons
    (hClose : c = ',' ∨ c = ']' ∨ c = '}') :
    Closes (c :: rest) := by
  intro d tail hText
  cases hText
  exact hClose

theorem closes_skipWs
    (hCloses : Closes rest) :
    skipWs rest = rest := by
  cases rest with
  | nil => rfl
  | cons c tail =>
      apply skipWs_token
      rcases hCloses c tail rfl with rfl | rfl | rfl <;> rfl

theorem closes_stops
    (hBlank : Blank IsAsciiSpace text rest)
    (hCloses : Closes rest) :
    Stops text := by
  cases hBlank with
  | done =>
      intro c tail hText
      rcases hCloses c tail hText with rfl | rfl | rfl <;> decide
  | step hSpace _ =>
      intro c tail hText
      cases hText
      rcases hSpace with (rfl | rfl | rfl | rfl) | rfl <;> decide

theorem number_head
    {number : List Char}
    (hNumber : NumberForm number) :
    ∃ c tail, number = c :: tail ∧ (c = '-' ∨ c.isDigit = true) := by
  rcases hNumber with ⟨sign, whole, fraction, exponent, hSign, hWhole, _, _,
    rfl⟩
  rcases hSign with rfl | rfl
  · cases hText : whole ++ (fraction ++ exponent) with
    | nil =>
        rcases hWhole with rfl | ⟨hDigits, _⟩
        · cases hText
        · exact absurd (List.append_eq_nil_iff.1 hText).1 hDigits.1
    | cons c tail =>
        exact ⟨c, tail, rfl, .inr (whole_no_sign hWhole c tail hText)⟩
  · exact ⟨'-', _, rfl, .inl rfl⟩

theorem numberHead_not
    {d : Char}
    (hHead : c = '-' ∨ c.isDigit = true)
    (hMinus : d ≠ '-')
    (hDigit : d.isDigit = false) :
    c ≠ d := by
  rintro rfl
  rcases hHead with hHead | hHead
  · exact hMinus hHead
  · rw [hDigit] at hHead
    cases hHead

theorem numberHead_token
    (hHead : c = '-' ∨ c.isDigit = true) :
    isAsciiWhitespace c = false := by
  rw [Bool.eq_false_iff]
  intro hSpace
  rcases isAsciiWhitespace_iff.1 hSpace with hSpace | hSpace
  · rcases hSpace with hSpace | hSpace | hSpace | hSpace <;>
      exact numberHead_not hHead (by decide) (by decide) hSpace
  · exact numberHead_not hHead (by decide) (by decide) hSpace

/- A value starts with no white space and no closing bracket. -/
theorem value_head
    (hReads : Reads (Blank IsAsciiSpace) (.value v) text rest) :
    ∃ c tail, text = c :: tail ∧ isAsciiWhitespace c = false ∧ c ≠ ']' := by
  cases hReads with
  | word hWord =>
      cases hWord with
      | null => exact ⟨'n', _, rfl, rfl, by decide⟩
      | true => exact ⟨'t', _, rfl, rfl, by decide⟩
      | false => exact ⟨'f', _, rfl, rfl, by decide⟩
      | number hForm =>
          rcases number_head hForm with ⟨c, tail, rfl, hHead⟩
          exact ⟨c, _, rfl, numberHead_token hHead,
            numberHead_not hHead (by decide) (by decide)⟩
  | string => exact ⟨'"', _, rfl, rfl, by decide⟩
  | emptyArray => exact ⟨'[', _, rfl, rfl, by decide⟩
  | array => exact ⟨'[', _, rfl, rfl, by decide⟩
  | emptyObject => exact ⟨'{', _, rfl, rfl, by decide⟩
  | object => exact ⟨'{', _, rfl, rfl, by decide⟩

theorem value_skipWs
    (hReads : Reads (Blank IsAsciiSpace) (.value v) text rest) :
    skipWs text = text := by
  rcases value_head hReads with ⟨c, tail, rfl, hToken, _⟩
  exact skipWs_token hToken

theorem elements_head
    (hReads : Reads (Blank IsAsciiSpace) (.elements items) text rest) :
    ∃ c tail, skipWs text = c :: tail ∧ c ≠ ']' := by
  have hItem : ∃ v stop, Reads (Blank IsAsciiSpace) (.item v) text stop := by
    cases hReads with
    | lastElement hItem => exact ⟨_, _, hItem⟩
    | moreElements hItem _ => exact ⟨_, _, hItem⟩
  rcases hItem with ⟨v, stop, hItem⟩
  cases hItem with
  | item hBefore hValue _ =>
      rcases value_head hValue with ⟨c, tail, hStart, _, hNot⟩
      refine ⟨c, tail, ?_, hNot⟩
      rw [skipWs_blank hBefore, value_skipWs hValue, hStart]

theorem members_head
    (hReads : Reads (Blank IsAsciiSpace) (.members fields) text rest) :
    ∃ tail, skipWs text = '"' :: tail := by
  have hField : ∃ key v stop,
      Reads (Blank IsAsciiSpace) (.field key v) text stop := by
    cases hReads with
    | lastMember hField => exact ⟨_, _, _, hField⟩
    | moreMembers hField _ => exact ⟨_, _, _, hField⟩
  rcases hField with ⟨key, v, stop, hField⟩
  cases hField with
  | field hBefore _ _ _ =>
      exact ⟨_, (skipWs_blank hBefore).trans (skipWs_token rfl)⟩

/- What the parser does with a piece, given fuel for its text. -/
def Accepted
    (total : Nat)
    (piece : Piece)
    (text rest : List Char) :
    Prop :=
  match piece with
  | .value v =>
      Stops rest → ∀ fuel, 3 * text.length + 1 ≤ fuel →
        parseValue total fuel text = .ok (v, rest)
  | .item v =>
      Closes rest → ∀ fuel, 3 * text.length + 1 ≤ fuel →
        ∃ stop, parseValue total fuel text = .ok (v, stop) ∧
          skipWs stop = rest
  | .field key v =>
      Closes rest → ∀ fuel, 3 * text.length + 1 ≤ fuel →
        ∃ afterKey colon stop,
          parseString total (skipWs text) = .ok (key, afterKey) ∧
          expect total ':' (skipWs afterKey) = .ok colon ∧
          parseValue total fuel colon = .ok (v, stop) ∧
          skipWs stop = rest
  | .elements items =>
      ∀ tail, rest = ']' :: tail → ∀ fuel, 3 * text.length + 2 ≤ fuel →
        arrayLoop total fuel text = .ok (items, tail)
  | .members fields =>
      ∀ tail, rest = '}' :: tail → ∀ fuel, 3 * text.length + 2 ≤ fuel →
        objectLoop total fuel text = .ok (fields, tail)

/- One turn of the parser on a value that starts with `c`. -/
theorem parseValue_object
    (hObject : parseObject total fuel text = .ok (fields, rest)) :
    parseValue total (fuel + 1) ('{' :: text) =
      .ok (.Object fields, rest) := by
  rw [parseValue, skipWs_token rfl]
  dsimp only
  rw [if_pos rfl, hObject]
  rfl

theorem parseValue_array
    (hArray : parseArray total fuel text = .ok (items, rest)) :
    parseValue total (fuel + 1) ('[' :: text) =
      .ok (.Array items, rest) := by
  rw [parseValue, skipWs_token rfl]
  dsimp only
  rw [if_neg (by decide), if_pos rfl, hArray]
  rfl

theorem parseValue_string
    (hBody : StringBody s text rest) :
    parseValue total (fuel + 1) ('"' :: text) = .ok (.String s, rest) := by
  rw [parseValue, skipWs_token rfl]
  dsimp only
  rw [if_neg (by decide), if_neg (by decide), if_pos rfl,
    parseString_ok.2 ⟨text, rfl, hBody⟩]
  rfl

theorem parseValue_bool
    {b : Bool}
    (hHead : c = 't' ∨ c = 'f')
    (hBool : parseBool total (c :: text) = .ok (b, rest)) :
    parseValue total (fuel + 1) (c :: text) = .ok (.Bool b, rest) := by
  have hNot : isAsciiWhitespace c = false ∧ c ≠ '{' ∧ c ≠ '[' ∧ c ≠ '"' := by
    rcases hHead with rfl | rfl <;> decide
  rw [parseValue, skipWs_token hNot.1]
  dsimp only
  rw [if_neg hNot.2.1, if_neg hNot.2.2.1, if_neg hNot.2.2.2, if_pos hHead,
    hBool]
  rfl

theorem parseValue_number
    (hHead : c = '-' ∨ c.isDigit = true)
    (hNumber : parseNumber total (c :: text) = .ok rest) :
    parseValue total (fuel + 1) (c :: text) = .ok (.Number, rest) := by
  have hNot : ∀ d, d ≠ '-' → d.isDigit = false → ¬ c = d :=
    fun d => numberHead_not hHead
  have hWord : ¬ (c = 't' ∨ c = 'f') := by
    rintro (hC | hC)
    · exact hNot 't' (by decide) (by decide) hC
    · exact hNot 'f' (by decide) (by decide) hC
  rw [parseValue, skipWs_token (numberHead_token hHead)]
  dsimp only
  rw [if_neg (hNot '{' (by decide) (by decide)),
    if_neg (hNot '[' (by decide) (by decide)),
    if_neg (hNot '"' (by decide) (by decide)), if_neg hWord,
    if_neg (hNot 'n' (by decide) (by decide)), if_pos hHead, hNumber]
  rfl

theorem parseValue_word
    (hWord : Word v word)
    (hStops : Stops rest) :
    parseValue total (fuel + 1) (word ++ rest) = .ok (v, rest) := by
  cases hWord with
  | null =>
      have hNull : parseNull total ("null".toList ++ rest) = .ok rest :=
        parseNull_ok.2 rfl
      rw [parseValue]
      show (fun rest => (JsonValue.Null, rest)) <$>
        parseNull total ("null".toList ++ rest) = _
      rw [hNull]
      rfl
  | true =>
      exact parseValue_bool (.inl rfl) (parseBool_ok.2 ⟨_, .true, rfl⟩)
  | false =>
      exact parseValue_bool (.inr rfl) (parseBool_ok.2 ⟨_, .false, rfl⟩)
  | number hForm =>
      have hNumber : parseNumber total (word ++ rest) = .ok rest :=
        parseNumber_complete hForm hStops
      rcases number_head hForm with ⟨c, tail, rfl, hHead⟩
      exact parseValue_number hHead hNumber

theorem parseArray_elements
    (hReads : Reads (Blank IsAsciiSpace) (.elements items) text rest)
    (hLoop : arrayLoop total fuel text = .ok (items, tail)) :
    parseArray total (fuel + 1) text = .ok (items, tail) := by
  rcases elements_head hReads with ⟨c, tail', hHead, hNot⟩
  rw [parseArray, hHead]
  split
  · rename_i hBracket
    exact absurd (List.cons.inj hBracket).1 hNot
  · rw [← hHead, arrayLoop_skipWs, hLoop]

theorem parseObject_members
    (hReads : Reads (Blank IsAsciiSpace) (.members fields) text rest)
    (hLoop : objectLoop total fuel text = .ok (fields, tail)) :
    parseObject total (fuel + 1) text = .ok (fields, tail) := by
  rcases members_head hReads with ⟨tail', hHead⟩
  rw [parseObject, hHead]
  split
  · rename_i hBrace
    exact absurd (List.cons.inj hBrace).1 (by decide)
  · rw [← hHead, objectLoop_skipWs, hLoop]

/- The loops, by what stands behind one value. -/
theorem arrayLoop_last
    (hValue : parseValue total fuel text = .ok (v, stop))
    (hStop : skipWs stop = ']' :: rest) :
    arrayLoop total (fuel + 1) text = .ok ([v], rest) := by
  rw [arrayLoop]
  apply bind_ok.2 ⟨_, hValue, ?_⟩
  dsimp only
  rw [hStop]
  rfl

theorem arrayLoop_more
    {stop comma : List Char}
    (hValue : parseValue total fuel text = .ok (v, stop))
    (hStop : skipWs stop = ',' :: comma)
    (hLoop : arrayLoop total fuel comma = .ok (items, rest)) :
    arrayLoop total (fuel + 1) text = .ok (v :: items, rest) := by
  rw [arrayLoop]
  apply bind_ok.2 ⟨_, hValue, ?_⟩
  dsimp only
  rw [hStop]
  dsimp only
  rw [if_pos rfl, hLoop]
  rfl

theorem objectLoop_last
    {key afterKey colon stop : List Char}
    (hKey : parseString total (skipWs text) = .ok (key, afterKey))
    (hColon : expect total ':' (skipWs afterKey) = .ok colon)
    (hValue : parseValue total fuel colon = .ok (v, stop))
    (hStop : skipWs stop = '}' :: rest) :
    objectLoop total (fuel + 1) text = .ok ([(key, v)], rest) := by
  rw [objectLoop]
  apply bind_ok.2 ⟨_, hKey, ?_⟩
  apply bind_ok.2 ⟨_, hColon, ?_⟩
  apply bind_ok.2 ⟨_, hValue, ?_⟩
  dsimp only
  rw [hStop]
  rfl

theorem objectLoop_more
    {key afterKey colon stop comma : List Char}
    (hKey : parseString total (skipWs text) = .ok (key, afterKey))
    (hColon : expect total ':' (skipWs afterKey) = .ok colon)
    (hValue : parseValue total fuel colon = .ok (v, stop))
    (hStop : skipWs stop = ',' :: comma)
    (hLoop : objectLoop total fuel comma = .ok (fields, rest)) :
    objectLoop total (fuel + 1) text = .ok ((key, v) :: fields, rest) := by
  rw [objectLoop]
  apply bind_ok.2 ⟨_, hKey, ?_⟩
  apply bind_ok.2 ⟨_, hColon, ?_⟩
  apply bind_ok.2 ⟨_, hValue, ?_⟩
  dsimp only
  rw [hStop]
  dsimp only
  rw [if_pos rfl, hLoop]
  rfl

/- Enough fuel is some. -/
theorem exists_fuel
    {n fuel : Nat}
    (hFuel : n + 1 ≤ fuel) :
    ∃ less, fuel = less + 1 ∧ n ≤ less :=
  ⟨fuel - 1, by omega, by omega⟩

/- The parser accepts every spelling. -/
theorem reads_accepted
    (hReads : Reads (Blank IsAsciiSpace) piece text rest) :
    Accepted total piece text rest := by
  induction hReads with
  | word hWord =>
      intro hStops fuel hFuel
      rcases exists_fuel hFuel with ⟨fuel, rfl, _⟩
      exact parseValue_word hWord hStops
  | string hBody =>
      intro hStops fuel hFuel
      rcases exists_fuel hFuel with ⟨fuel, rfl, _⟩
      exact parseValue_string hBody
  | emptyArray hGap =>
      intro hStops fuel hFuel
      rcases exists_fuel hFuel with ⟨fuel, rfl, hLess⟩
      rw [List.length_cons] at hLess
      rcases exists_fuel (by omega : 0 + 1 ≤ fuel) with ⟨fuel, rfl, _⟩
      apply parseValue_array
      rw [parseArray, skipWs_blank hGap]
      rfl
  | @array items text rest hItems ih =>
      intro hStops fuel hFuel
      rw [List.length_cons] at hFuel
      rcases exists_fuel hFuel with ⟨fuel, rfl, hLess⟩
      rcases exists_fuel (by omega : 3 * text.length + 2 + 1 ≤ fuel) with
        ⟨fuel, rfl, hEnough⟩
      apply parseValue_array
      exact parseArray_elements hItems (ih rest rfl fuel hEnough)
  | emptyObject hGap =>
      intro hStops fuel hFuel
      rcases exists_fuel hFuel with ⟨fuel, rfl, hLess⟩
      rw [List.length_cons] at hLess
      rcases exists_fuel (by omega : 0 + 1 ≤ fuel) with ⟨fuel, rfl, _⟩
      apply parseValue_object
      rw [parseObject, skipWs_blank hGap]
      rfl
  | @object fields text rest hFields ih =>
      intro hStops fuel hFuel
      rw [List.length_cons] at hFuel
      rcases exists_fuel hFuel with ⟨fuel, rfl, hLess⟩
      rcases exists_fuel (by omega : 3 * text.length + 2 + 1 ≤ fuel) with
        ⟨fuel, rfl, hEnough⟩
      apply parseValue_object
      exact parseObject_members hFields (ih rest rfl fuel hEnough)
  | @item v text start stop rest hBefore hValue hAfter ih =>
      intro hCloses fuel hFuel
      have hLe := blank_length hBefore
      refine ⟨stop, ?_, ?_⟩
      · rw [parseValue_blank hBefore]
        exact ih (closes_stops hAfter hCloses) fuel (by omega)
      · rw [skipWs_blank hAfter, closes_skipWs hCloses]
  | @field key v text body stop colon rest hBefore hKey hColon hValue ih =>
      intro hCloses fuel hFuel
      have hLe := blank_length hBefore
      have hLe' := body_length hKey
      have hLe'' := blank_length hColon
      rw [List.length_cons] at hLe hLe''
      rcases ih hCloses fuel (by omega) with ⟨after, hParse, hAfter⟩
      refine ⟨stop, colon, after, ?_, ?_, hParse, hAfter⟩
      · rw [skipWs_blank hBefore, skipWs_token rfl]
        exact parseString_ok.2 ⟨body, rfl, hKey⟩
      · rw [skipWs_blank hColon, skipWs_token rfl]
        exact expect_ok.2 rfl
  | lastElement _ ih =>
      rintro tail rfl fuel hFuel
      rcases exists_fuel hFuel with ⟨fuel, rfl, hLess⟩
      rcases ih (closes_cons (.inr (.inl rfl))) fuel hLess with
        ⟨stop, hParse, hStop⟩
      exact arrayLoop_last hParse hStop
  | @moreElements v items text comma rest hItem hItems ihItem ihItems =>
      rintro tail rfl fuel hFuel
      have hLe := reads_length hItem
      rw [List.length_cons] at hLe
      rcases exists_fuel hFuel with ⟨fuel, rfl, hLess⟩
      rcases ihItem (closes_cons (.inl rfl)) fuel hLess with
        ⟨stop, hParse, hStop⟩
      exact arrayLoop_more hParse hStop (ihItems tail rfl fuel (by omega))
  | lastMember _ ih =>
      rintro tail rfl fuel hFuel
      rcases exists_fuel hFuel with ⟨fuel, rfl, hLess⟩
      rcases ih (closes_cons (.inr (.inr rfl))) fuel hLess with
        ⟨afterKey, colon, stop, hKey, hColon, hParse, hStop⟩
      exact objectLoop_last hKey hColon hParse hStop
  | @moreMembers key v fields text comma rest hField hFields ihField
      ihFields =>
      rintro tail rfl fuel hFuel
      have hLe := reads_length hField
      rw [List.length_cons] at hLe
      rcases exists_fuel hFuel with ⟨fuel, rfl, hLess⟩
      rcases ihField (closes_cons (.inl rfl)) fuel hLess with
        ⟨afterKey, colon, stop, hKey, hColon, hParse, hStop⟩
      exact objectLoop_more hKey hColon hParse hStop
        (ihFields tail rfl fuel (by omega))

------------------------------------------------------------
-- Fuel
------------------------------------------------------------

/- Not for want of fuel, and with less left. -/
abbrev Ends
    {α : Type}
    (n : Nat)
    (result : Except JsonFault (α × List Char)) :
    Prop :=
  Leaves JsonFault.OutOfFuel Prod.snd n result

abbrev EndsBare
    (n : Nat)
    (result : Except JsonFault (List Char)) :
    Prop :=
  Leaves JsonFault.OutOfFuel id n result

variable {n : Nat}

theorem syntaxAt_ends
    {message : String} :
    Leaves JsonFault.OutOfFuel left n (syntaxAt total text message) := by
  intro hSpent
  cases hSpent

theorem syntaxBehind_ends
    {message : String} :
    Leaves JsonFault.OutOfFuel left n
      (syntaxBehind total c text message) := by
  intro hSpent
  cases hSpent

theorem expect_ends
    (total : Nat)
    (c : Char)
    (text : List Char) :
    EndsBare text.length (expect total c text) := by
  cases text with
  | nil => exact syntaxAt_ends
  | cons d tail =>
      rw [expect]
      split
      · exact Nat.lt_succ_self _
      · exact syntaxAt_ends

theorem readHexDigits_ends
    (total count acc : Nat)
    (text : List Char) :
    Ends (text.length + 1) (readHexDigits total count acc text) := by
  fun_induction readHexDigits total count acc text with
  | case1 acc text => exact Nat.lt_succ_self _
  | case2 => exact syntaxAt_ends
  | case3 acc count c tail digit _ ih => exact ih.mono (Nat.le_succ _)
  | case4 => exact syntaxBehind_ends

theorem readSurrogates_ends
    (total cp : Nat)
    (text : List Char) :
    Ends (text.length + 1) (readSurrogates total cp text) := by
  unfold readSurrogates
  split
  · apply (expect_ends total _ text).bind
    intro text₁ hFirst
    apply (expect_ends total _ text₁).bind
    intro text₂ hSecond
    apply (readHexDigits_ends total 4 0 text₂).bind
    rintro ⟨low, rest⟩ hRest
    dsimp only at hRest ⊢
    split
    · show rest.length < text.length + 1
      simp only [id] at hFirst hSecond
      omega
    · exact syntaxAt_ends
  · split
    · exact syntaxAt_ends
    · exact Nat.lt_succ_self _

theorem readScalar_ends
    (total : Nat)
    (text : List Char) :
    Ends (text.length + 1) (readScalar total text) := by
  unfold readScalar
  apply (readHexDigits_ends total 4 0 text).bind
  rintro ⟨cp, text₁⟩ hFirst
  apply (readSurrogates_ends total cp text₁).bind
  rintro ⟨scalar, rest⟩ hRest
  dsimp only at hFirst hRest ⊢
  split
  · show rest.length < text.length + 1
    omega
  · exact syntaxAt_ends

theorem parseEscape_ends
    (total : Nat)
    (text : List Char) :
    Ends text.length (parseEscape total text) := by
  cases text with
  | nil => exact syntaxAt_ends
  | cons c tail =>
      rw [parseEscape]
      split
      · exact Nat.lt_succ_self _
      · split
        · exact readScalar_ends total tail
        · exact syntaxBehind_ends

theorem stringStep_ends
    (total : Nat)
    (text : List Char) :
    Ends text.length (stringStep total text) := by
  cases text with
  | nil => exact syntaxAt_ends
  | cons c tail =>
      rw [stringStep]
      split
      · exact Nat.lt_succ_self _
      · split
        · have hEscape := (parseEscape_ends total tail).mono (Nat.le_succ _)
          exact hEscape.map fun _ => rfl
        · split
          · exact syntaxAt_ends
          · exact Nat.lt_succ_self _

theorem stringLoop_ends
    (total : Nat)
    (text : List Char) :
    Ends text.length (stringLoop total text) := by
  fun_induction stringLoop total text with
  | case1 text fault hStep =>
      have hEnds := stringStep_ends total text
      rw [hStep] at hEnds
      exact hEnds
  | case2 text rest hStep =>
      have hEnds := stringStep_ends total text
      rw [hStep] at hEnds
      exact hEnds
  | case3 text c rest hStep ih =>
      have hEnds := stringStep_ends total text
      rw [hStep] at hEnds
      exact (ih.mono (Nat.le_of_lt hEnds)).map fun _ => rfl

theorem parseString_ends
    (total : Nat)
    (text : List Char) :
    Ends text.length (parseString total text) := by
  apply (expect_ends total _ text).bind
  intro rest hRest
  exact (stringLoop_ends total rest).mono (Nat.le_of_lt hRest)

theorem afterWord_length
    (hWord : word ≠ [])
    (hAfter : afterWord word text = some rest) :
    rest.length < text.length := by
  have hPos := List.length_pos_iff.2 hWord
  rw [afterWord_ok.1 hAfter, List.length_append]
  omega

theorem parseBool_ends
    (total : Nat)
    (text : List Char) :
    Ends text.length (parseBool total text) := by
  unfold parseBool
  split
  · rename_i hTrue
    exact afterWord_length (by decide) hTrue
  · rename_i hFalse
    exact afterWord_length (by decide) hFalse
  · exact syntaxAt_ends

theorem parseNull_ends
    (total : Nat)
    (text : List Char) :
    EndsBare text.length (parseNull total text) := by
  unfold parseNull
  split
  · rename_i hNull
    exact afterWord_length (by decide) hNull
  · exact syntaxAt_ends

theorem skipDigits_length
    (text : List Char) :
    (skipDigits text).length ≤ text.length :=
  (List.dropWhile_sublist Char.isDigit).length_le

theorem skipSign_length
    (isSign : Char → Bool)
    (text : List Char) :
    (skipSign isSign text).length ≤ text.length := by
  rcases skipSign_sound isSign text with ⟨sign, _, hText⟩
  have hLength := congrArg List.length hText
  rw [List.length_append] at hLength
  omega

theorem parseDigits_ends
    (total : Nat)
    (message : String)
    (text : List Char) :
    EndsBare text.length (parseDigits total message text) := by
  have hLe := skipDigits_length text
  unfold parseDigits
  split
  · exact syntaxAt_ends
  · rename_i hSome
    exact Nat.lt_of_le_of_ne hLe hSome

theorem parseWhole_ends
    (total : Nat)
    (text : List Char) :
    EndsBare text.length (parseWhole total text) := by
  cases text with
  | nil => exact syntaxAt_ends
  | cons c tail =>
      rw [parseWhole]
      split
      · exact Nat.lt_succ_self _
      · split
        · exact Nat.lt_succ_of_le (skipDigits_length tail)
        · exact syntaxAt_ends

theorem parseFraction_ends
    (total : Nat)
    (text : List Char) :
    EndsBare (text.length + 1) (parseFraction total text) := by
  unfold parseFraction
  split
  · rename_i tail
    apply (parseDigits_ends total _ tail).mono
    rw [List.length_cons]
    omega
  · exact Nat.lt_succ_self _

theorem parseExponent_ends
    (total : Nat)
    (text : List Char) :
    EndsBare (text.length + 1) (parseExponent total text) := by
  cases text with
  | nil => exact Nat.lt_succ_self _
  | cons e tail =>
      rw [parseExponent]
      split
      · have hLe := skipSign_length (fun c => c == '+' || c == '-') tail
        apply (parseDigits_ends total _ _).mono
        rw [List.length_cons]
        omega
      · exact Nat.lt_succ_self _

theorem parseNumber_ends
    (total : Nat)
    (text : List Char) :
    EndsBare text.length (parseNumber total text) := by
  have hLe := skipSign_length (· == '-') text
  apply (parseWhole_ends total (skipSign (· == '-') text)).bind
  intro text₁ hFirst
  apply (parseFraction_ends total text₁).bind
  intro text₂ hSecond
  apply (parseExponent_ends total text₂).mono
  simp only [id] at hFirst hSecond
  omega

/- With three turns for each character no parser runs out. -/
structure Enough
    (total fuel : Nat)
    (text : List Char) :
    Prop where
  value : 3 * text.length + 1 ≤ fuel →
    Ends text.length (parseValue total fuel text)
  object : 3 * text.length + 3 ≤ fuel →
    Ends text.length (parseObject total fuel text)
  objectLoop : 3 * text.length + 2 ≤ fuel →
    Ends text.length (objectLoop total fuel text)
  array : 3 * text.length + 3 ≤ fuel →
    Ends text.length (parseArray total fuel text)
  arrayLoop : 3 * text.length + 2 ≤ fuel →
    Ends text.length (arrayLoop total fuel text)

theorem parseValue_ends
    (ih : ∀ text, Enough total fuel text)
    (hFuel : 3 * text.length + 1 ≤ fuel + 1) :
    Ends text.length (parseValue total (fuel + 1) text) := by
  have hSkip := skipWs_length text
  rw [parseValue]
  split
  · exact syntaxAt_ends
  · rename_i c rest hText
    rw [hText, List.length_cons] at hSkip
    split
    · exact (((ih rest).object (by omega)).mono (by omega)).map fun _ => rfl
    split
    · exact (((ih rest).array (by omega)).mono (by omega)).map fun _ => rfl
    split
    · exact ((parseString_ends total (c :: rest)).mono
        (by rw [List.length_cons]; omega)).map fun _ => rfl
    split
    · exact ((parseBool_ends total (c :: rest)).mono
        (by rw [List.length_cons]; omega)).map fun _ => rfl
    split
    · exact ((parseNull_ends total (c :: rest)).mono
        (by rw [List.length_cons]; omega)).map fun _ => rfl
    split
    · exact ((parseNumber_ends total (c :: rest)).mono
        (by rw [List.length_cons]; omega)).map fun _ => rfl
    · exact syntaxAt_ends

theorem arrayLoop_ends
    (ih : ∀ text, Enough total fuel text)
    (hFuel : 3 * text.length + 2 ≤ fuel + 1) :
    Ends text.length (arrayLoop total (fuel + 1) text) := by
  rw [arrayLoop]
  apply ((ih text).value (by omega)).bind
  rintro ⟨value, text₁⟩ hValue
  have hSkip := skipWs_length text₁
  dsimp only at hValue ⊢
  split
  · exact syntaxAt_ends
  · rename_i c rest hText
    rw [hText, List.length_cons] at hSkip
    split
    · exact (((ih rest).arrayLoop (by omega)).mono (by omega)).map
        fun _ => rfl
    · split
      · show rest.length < text.length
        omega
      · exact syntaxAt_ends

theorem objectLoop_ends
    (ih : ∀ text, Enough total fuel text)
    (hFuel : 3 * text.length + 2 ≤ fuel + 1) :
    Ends text.length (objectLoop total (fuel + 1) text) := by
  have hBefore := skipWs_length text
  rw [objectLoop]
  apply (parseString_ends total (skipWs text)).bind
  rintro ⟨key, text₁⟩ hKey
  have hBetween := skipWs_length text₁
  apply (expect_ends total ':' (skipWs text₁)).bind
  intro text₂ hColon
  dsimp only [id] at hKey hColon
  apply ((ih text₂).value (by omega)).bind
  rintro ⟨value, text₃⟩ hValue
  have hSkip := skipWs_length text₃
  dsimp only at hValue ⊢
  split
  · exact syntaxAt_ends
  · rename_i c rest hText
    rw [hText, List.length_cons] at hSkip
    split
    · exact (((ih rest).objectLoop (by omega)).mono (by omega)).map
        fun _ => rfl
    · split
      · show rest.length < text.length
        omega
      · exact syntaxAt_ends

theorem parser_leaves
    (total fuel : Nat) :
    ∀ text, Enough total fuel text := by
  induction fuel with
  | zero =>
      intro text
      constructor <;> intro hFuel <;> omega
  | succ fuel ih =>
      intro text
      have hSkip := skipWs_length text
      refine ⟨parseValue_ends ih, ?_, objectLoop_ends ih, ?_,
        arrayLoop_ends ih⟩
      · intro hFuel
        rw [parseObject]
        split
        · rename_i rest hText
          rw [hText, List.length_cons] at hSkip
          exact hSkip
        · exact ((ih _).objectLoop (by omega)).mono hSkip
      · intro hFuel
        rw [parseArray]
        split
        · rename_i rest hText
          rw [hText, List.length_cons] at hSkip
          exact hSkip
        · exact ((ih _).arrayLoop (by omega)).mono hSkip

theorem stripFrom_refused
    (total : Nat)
    (text : List Char) :
    stripFrom total text ≠ .error .OutOfFuel := by
  fun_induction stripFrom total text with
  | case1 => exact fun hSpent => by cases hSpent
  | case2 rest ih =>
      cases hRest : stripFrom total (copyString rest).2 with
      | error fault =>
          rw [hRest] at ih
          exact ih
      | ok out => exact fun hSpent => by cases hSpent
  | case3 rest ih => exact ih
  | case4 rest rest' hSkip ih =>
      cases hRest : stripFrom total rest' with
      | error fault =>
          rw [hRest] at ih
          exact ih
      | ok out => exact fun hSpent => by cases hSpent
  | case5 => exact fun hSpent => by cases hSpent
  | case6 c rest _ _ _ ih =>
      cases hRest : stripFrom total rest with
      | error fault =>
          rw [hRest] at ih
          exact ih
      | ok out => exact fun hSpent => by cases hSpent

theorem parseJsonc_refused
    (text : List Char) :
    parseJsonc text ≠ .error .OutOfFuel := by
  unfold parseJsonc
  cases hStrip : stripJsoncComments text with
  | error fault =>
      have hRefused := stripFrom_refused (Text.utf8 text).length text
      rw [stripJsoncComments] at hStrip
      rw [hStrip] at hRefused
      intro hSpent
      cases hSpent
      exact hRefused rfl
  | ok stripped =>
      have hEnough := (parser_leaves (Text.utf8 stripped).length
        (parserFuel (skipWs (withoutBom stripped)))
        (skipWs (withoutBom stripped))).value (by unfold parserFuel; omega)
      have hEnds : Leaves JsonFault.OutOfFuel (fun _ : JsonValue =>
          ([] : List Char)) 1 (parseStripped stripped) := by
        apply hEnough.bind
        rintro ⟨value, rest⟩ _
        dsimp only
        split
        · exact Nat.zero_lt_one
        · exact syntaxAt_ends
      exact hEnds.not_spent

theorem item_skipWs
    (hItem : Reads (Blank IsAsciiSpace) (.item v) text rest) :
    Reads (Blank IsAsciiSpace) (.item v) (skipWs text) rest := by
  cases hItem with
  | item hBefore hValue hAfter =>
      rw [skipWs_blank hBefore, value_skipWs hValue]
      exact .item (.done _) hValue hAfter

theorem parseStripped_ok :
    parseStripped text = .ok v ↔
      Spelling (Blank IsAsciiSpace) v (withoutBom text) := by
  unfold parseStripped
  rw [bind_ok]
  constructor
  · rintro ⟨⟨value, rest⟩, hValue, hEnd⟩
    dsimp only at hEnd
    split at hEnd
    · rename_i hRest
      cases hEnd
      have hReads := (parser_sound _ _).value hValue
      rw [skipWs_skipWs] at hReads
      exact item_sound hReads hRest
    · cases hEnd
  · intro hSpelling
    have hClosed : Closes [] := fun c tail hText => by cases hText
    have hFuel : 3 * (skipWs (withoutBom text)).length + 1 ≤
        parserFuel (skipWs (withoutBom text)) := by
      unfold parserFuel
      omega
    rcases reads_accepted (item_skipWs hSpelling) hClosed _ hFuel with
      ⟨stop, hParse, hStop⟩
    refine ⟨(v, stop), hParse, ?_⟩
    dsimp only
    rw [hStop]

/- The mark at the start stays where it is. -/
theorem stripFrom_bom
    (hStrip : stripFrom total text = .ok out) :
    stripFrom total (withoutBom text) = .ok (withoutBom out) := by
  unfold withoutBom
  split
  · rename_i rest
    rw [stripFrom_plain (by decide) (by decide)] at hStrip
    rcases map_ok.1 hStrip with ⟨out', hRest, rfl⟩
    exact hRest
  · rename_i hNone
    split
    · rename_i out'
      rcases strip_token (by decide) (by decide) (by decide) hStrip with
        ⟨rest, hText, _⟩
      exact absurd hText (hNone rest)
    · exact hStrip

theorem stripFrom_of_bom
    (hStrip : stripFrom total (withoutBom text) = .ok out) :
    ∃ out', stripFrom total text = .ok out' := by
  unfold withoutBom at hStrip
  split at hStrip
  · rename_i rest
    rw [stripFrom_plain (by decide) (by decide), hStrip]
    exact ⟨_, rfl⟩
  · exact ⟨out, hStrip⟩

/- Stripping and parsing, by the spellings with white space of ASCII. -/
theorem parseJsonc_ok :
    parseJsonc text = .ok v ↔
      Spelling (Commented IsAsciiSpace) v (withoutBom text) := by
  unfold parseJsonc stripJsoncComments
  rw [bind_ok]
  constructor
  · rintro ⟨stripped, hStrip, hParse⟩
    rw [spelling_strip ascii_spaceClass (stripFrom_bom hStrip)]
    exact parseStripped_ok.1 hParse
  · intro hSpelling
    have hBehind : ∃ out, stripFrom (Text.utf8 text).length
        (withoutBom text) = .ok out :=
      strip_of_spelling ascii_spaceClass hSpelling
    rcases hBehind with ⟨out, hOut⟩
    rcases stripFrom_of_bom hOut with ⟨stripped, hStrip⟩
    refine ⟨stripped, hStrip, ?_⟩
    rw [spelling_strip ascii_spaceClass (stripFrom_bom hStrip)] at hSpelling
    exact parseStripped_ok.2 hSpelling

/- A mark is no white space and starts no comment. -/
theorem bom_no_gap
    {space : Char → Prop}
    (hSpace : ¬ space '\uFEFF')
    (hGap : Commented space ('\uFEFF' :: text) rest) :
    '\uFEFF' :: text = rest := by
  cases hGap with
  | done => rfl
  | step hStep _ => exact absurd hStep hSpace

theorem standard_ascii
    (hGap : Commented IsStandardSpace text rest) :
    Commented IsAsciiSpace text rest :=
  hGap.mono fun _ hSpace => .inl hSpace

/- The reader accepts a byte order mark in front of a value. -/
theorem bom_accepted :
    ¬ ∀ (text : List Char) (v : JsonValue),
      parseJsonc text = .ok v →
        Spelling (Commented IsStandardSpace) v text := by
  intro hAll
  have hSpelling : Spelling (Commented IsAsciiSpace) (.Object [])
      (withoutBom ['\uFEFF', '{', '}']) :=
    .item (.done _) (.emptyObject (.done _)) (.done [])
  have hStandard := hAll _ _ (parseJsonc_ok.2 hSpelling)
  cases hStandard with
  | item hBefore hValue _ =>
      have hStart := bom_no_gap (by unfold IsStandardSpace; decide) hBefore
      rw [← hStart] at hValue
      generalize hText : ['\uFEFF', '{', '}'] = text at hValue
      cases hValue with
      | word hWord => cases hWord
      | emptyObject => cases hText
      | object => cases hText

/- The texts the reader accepts are the spellings with comments, behind a
   byte order mark or not; form feeds may stand among white space. -/
theorem jsonc_parsed_exactly :
    (∀ (text : List Char) (v : JsonValue),
      Spelling (Commented IsStandardSpace) v (withoutBom text) →
        parseJsonc text = .ok v) ∧
    (∀ (text : List Char) (v : JsonValue),
      parseJsonc text = .ok v →
        Spelling (Commented IsAsciiSpace) v (withoutBom text)) ∧
    (∀ text : List Char, parseJsonc text ≠ .error .OutOfFuel) ∧
    (∀ (s text rest : List Char), StringBody s text rest →
      ∃ body, text = body ++ rest ∧
        ∀ total, stripFrom total ('"' :: text) =
          (fun out => '"' :: body ++ out) <$> stripFrom total rest) := by
  refine ⟨?_, ?_, parseJsonc_refused, ?_⟩
  · intro text v hSpelling
    exact parseJsonc_ok.2 (hSpelling.mono fun _ _ => standard_ascii)
  · intro text v hParse
    exact parseJsonc_ok.1 hParse
  · intro s text rest hBody
    rcases strip_literal hBody with ⟨body, hText, _, hStrip⟩
    exact ⟨body, hText, hStrip⟩

end Json

end MSBuild

end Borzoi
