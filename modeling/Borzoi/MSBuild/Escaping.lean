import Borzoi.NuGet.Version
import Borzoi.Text.Slice

/-
  The escaped value domain.

  A value is stored escaped and unescaped once, at its point of use.  The
  decoder reads bytes, and copies the text behind its last escape only
  when it meets another; `decode` reads the characters left to right.

  Main declarations:
    * `escape`
    * `unescape`
    * `Escaped.splitList`
    * `decode`
    * `unescape_eq`
    * `escaped_domain_laws`
-/

namespace Borzoi

namespace MSBuild

open Text
open NuGet (trim isWhitespace)

/- `CHARS_TO_ESCAPE`. -/
def charsToEscape :
    List UInt8 :=
  utf8 "%*?@$();'".toList

/- `hex_digit`. -/
def hexDigit
    (x : UInt8) :
    Char :=
  Char.ofUInt8 (if x < 10 then 0x30 + x else 0x61 - 10 + x)

/- The test of `escape` for one character. -/
def isReserved
    (ch : Char) :
    Bool :=
  ch.toNat < 0x80 && charsToEscape.contains (UInt8.ofNat ch.toNat)

def escapeChar
    (ch : Char) :
    List Char :=
  if isReserved ch then
    ['%', hexDigit (UInt8.ofNat ch.toNat / 0x10),
      hexDigit (UInt8.ofNat ch.toNat &&& 0x0f)]
  else
    [ch]

def escape
    (unescaped : List Char) :
    List Char :=
  if !(utf8 unescaped).any charsToEscape.contains then
    unescaped
  else
    unescaped.flatMap escapeChar

/- `decode_hex_digit`. -/
def decodeHexDigit
    (b : UInt8) :
    Option UInt8 :=
  if 0x30 ≤ b ∧ b ≤ 0x39 then
    some (b - 0x30)
  else if 0x41 ≤ b ∧ b ≤ 0x46 then
    some (b - 0x41 + 10)
  else if 0x61 ≤ b ∧ b ≤ 0x66 then
    some (b - 0x61 + 10)
  else
    none

/- One turn of the loop up to its search: the output and the offset up
   to which it is copied.  A slice out of range is `none`. -/
def unescapeAt
    (escaped out : List Char)
    (copied at' : Nat) :
    Option (List Char × Nat) :=
  match (utf8 escaped)[at' + 1]?.bind decodeHexDigit,
      (utf8 escaped)[at' + 2]?.bind decodeHexDigit with
  | some hi, some lo =>
      (sliceBytes escaped copied at').map fun text =>
        (out ++ text ++ [Char.ofUInt8 (hi * 0x10 + lo)], at' + 3)
  | _, _ => some (out, copied)

/- `bytes[n..]`. -/
def bytesFrom
    (bytes : List UInt8)
    (n : Nat) :
    Option (List UInt8) :=
  if n ≤ bytes.length then some (bytes.drop n) else none

/- The loop of `unescape`. -/
def unescapeLoop
    (escaped out : List Char)
    (copied at' : Nat) :
    Option (List Char) :=
  match unescapeAt escaped out copied at' with
  | none => none
  | some (out, copied) =>
      match _hRest : bytesFrom (utf8 escaped) (at' + 1) with
      | none => none
      | some rest =>
          match rest.findIdx? (· == 0x25) with
          | some next => unescapeLoop escaped out copied (at' + 1 + next)
          | none => (dropBytes escaped copied).map (out ++ ·)
termination_by (utf8 escaped).length - at'
decreasing_by
  simp only [bytesFrom, Option.ite_none_right_eq_some] at _hRest
  omega

def unescape
    (escaped : List Char) :
    Option (List Char) :=
  match (utf8 escaped).findIdx? (· == 0x25) with
  | none => some escaped
  | some first => unescapeLoop escaped [] 0 first

/- `Escaped`. -/
structure Escaped where
  text : List Char
  deriving DecidableEq, Repr

namespace Escaped

/- `from_computed`. -/
def fromComputed
    (text : List Char) :
    Escaped :=
  ⟨escape text⟩

def unescape
    (e : Escaped) :
    Option (List Char) :=
  MSBuild.unescape e.text

/- `split_list`. -/
def splitList
    (e : Escaped) :
    List Escaped :=
  (((e.text.splitOn ';').map trim).filter fun s => !s.isEmpty).map
    Escaped.mk

end Escaped

def hexValue
    (c : Char) :
    Option Nat :=
  if '0' ≤ c ∧ c ≤ '9' then
    some (c.toNat - '0'.toNat)
  else if 'A' ≤ c ∧ c ≤ 'F' then
    some (c.toNat - 'A'.toNat + 10)
  else if 'a' ≤ c ∧ c ≤ 'f' then
    some (c.toNat - 'a'.toNat + 10)
  else
    none

/- The text an escaped text stands for: each escape is decoded once, left
   to right. -/
def decode :
    List Char → List Char
  | '%' :: h :: l :: text =>
      match hexValue h, hexValue l with
      | some hi, some lo => Char.ofNat (16 * hi + lo) :: decode text
      | _, _ => '%' :: decode (h :: l :: text)
  | c :: text => c :: decode text
  | [] => []

variable {a b s text : List Char} {c ch : Char}

/- A digit is an ASCII character below sixteen, the two readings of it
   agree, and it is neither reserved nor whitespace. -/
theorem hexDigit_facts :
    ∀ b : UInt8,
      (decodeHexDigit b).all (fun v => b < 0x80 && v.toNat < 16) = true ∧
      hexValue (Char.ofUInt8 b) = (decodeHexDigit b).map UInt8.toNat ∧
      Char.ofUInt8 b = Char.ofNat b.toNat ∧
      ((hexValue (Char.ofUInt8 b)).isSome →
        isReserved (Char.ofUInt8 b) = false ∧
          isWhitespace (Char.ofUInt8 b) = false) :=
  forall_uint8 (by decide +kernel)

theorem decodeHexDigit_range
    {b v : UInt8}
    (hSome : decodeHexDigit b = some v) :
    b < 0x80 ∧ v.toNat < 16 := by
  have hRange := (hexDigit_facts b).1
  rw [hSome, Option.all_some, Bool.and_eq_true, decide_eq_true_eq,
    decide_eq_true_eq] at hRange
  exact hRange

variable {h l : Char} {hi lo n : Nat}

theorem hexValue_ascii
    (hHex : hexValue c = some n) :
    c.toNat < 0x80 := by
  have hUpper : ∀ top : Char, top.toNat < 0x80 → c ≤ top →
      c.toNat < 0x80 := by
    intro top hTop hLe
    exact Nat.lt_of_le_of_lt (Char.le_def.1 hLe) hTop
  unfold hexValue at hHex
  split at hHex
  · rename_i h
    exact hUpper '9' (by decide) h.2
  · split at hHex
    · rename_i h
      exact hUpper 'F' (by decide) h.2
    · split at hHex
      · rename_i h
        exact hUpper 'f' (by decide) h.2
      · cases hHex

/- A byte that is a digit is a character that is one. -/
theorem hexValue_of_byte
    {v : UInt8}
    (hByte : (utf8 text)[0]?.bind decodeHexDigit = some v) :
    ∃ h rest, text = h :: rest ∧ hexValue h = some v.toNat ∧
      v.toNat < 16 := by
  rcases Option.bind_eq_some_iff.1 hByte with ⟨b, hb, hDigit⟩
  rcases cons_of_ascii hb (decodeHexDigit_range hDigit).1 with
    ⟨h, rest, rfl, hNat, _⟩
  have hChar : h = Char.ofUInt8 b := by
    rw [(hexDigit_facts _).2.2.1, ← hNat, Char.ofNat_toNat]
  refine ⟨h, rest, rfl, ?_, (decodeHexDigit_range hDigit).2⟩
  rw [hChar, (hexDigit_facts _).2.1, hDigit, Option.map_some]

theorem byte_of_hexValue
    (hHex : hexValue c = some n) :
    ∃ v : UInt8, v.toNat = n ∧ v.toNat < 16 ∧
      ∀ text, (utf8 (c :: text))[0]?.bind decodeHexDigit = some v := by
  have hAscii := hexValue_ascii hHex
  have hChar : c = Char.ofUInt8 (UInt8.ofNat c.toNat) := by
    rw [(hexDigit_facts _).2.2.1]
    have hNat : (UInt8.ofNat c.toNat).toNat = c.toNat := by
      show c.toNat % 256 = c.toNat
      omega
    rw [hNat, Char.ofNat_toNat]
  rw [hChar, (hexDigit_facts _).2.1] at hHex
  rcases Option.map_eq_some_iff.1 hHex with ⟨v, hv, hn⟩
  refine ⟨v, hn, (decodeHexDigit_range hv).2, ?_⟩
  intro text
  rw [utf8_cons, encode_ascii hAscii]
  exact hv

theorem hexValue_length
    (hHex : hexValue c = some n) :
    (String.utf8EncodeChar c).length = 1 := by
  rw [encode_ascii (hexValue_ascii hHex)]
  rfl

theorem hexValue_ne_mark
    (hHex : hexValue c = some n) :
    c ≠ '%' := by
  rintro rfl
  have hNone : hexValue '%' = none := by decide
  rw [hNone] at hHex
  cases hHex

theorem decode_cons
    (hNe : c ≠ '%') :
    decode (c :: text) = c :: decode text := by
  rw [decode.eq_def]
  split
  · rename_i heq
    cases heq
    exact absurd rfl hNe
  · rename_i heq
    cases heq
    rfl
  · rename_i heq
    cases heq

theorem decode_append
    (hNone : '%' ∉ a) :
    decode (a ++ b) = a ++ decode b := by
  induction a with
  | nil => rfl
  | cons c a ih =>
      have hNe : c ≠ '%' := fun h => hNone (h ▸ List.mem_cons_self)
      have hTail : '%' ∉ a := fun h => hNone (List.mem_cons_of_mem _ h)
      rw [List.cons_append, decode_cons hNe, ih hTail, List.cons_append]

theorem decode_nil :
    decode [] = [] := by
  rw [decode.eq_def]

theorem decode_of_not_mem
    (hNone : '%' ∉ a) :
    decode a = a := by
  have hAppend := decode_append (b := []) hNone
  rwa [List.append_nil, decode_nil, List.append_nil] at hAppend

theorem decode_escape
    (hHigh : hexValue h = some hi)
    (hLow : hexValue l = some lo) :
    decode ('%' :: h :: l :: text) =
      Char.ofNat (16 * hi + lo) :: decode text := by
  rw [decode, hHigh, hLow]

/- The characters behind a mark that no escape starts with. -/
def NoEscape
    (post : List Char) :
    Prop :=
  ∀ h l rest, post = h :: l :: rest →
    hexValue h = none ∨ hexValue l = none

theorem decode_literal
    (hNone : NoEscape text) :
    decode ('%' :: text) = '%' :: decode text := by
  rw [decode.eq_def]
  split
  · rename_i h l rest heq
    cases heq
    split
    · rename_i hHigh hLow
      rcases hNone h l rest rfl with hh | hl
      · rw [hh] at hHigh
        cases hHigh
      · rw [hl] at hLow
        cases hLow
    · rfl
  · rename_i heq
    cases heq
    rfl
  · rename_i heq
    cases heq

variable {pre mid post out rest : List Char}

theorem findMark
    (hBefore : '%' ∉ a) :
    (utf8 (a ++ '%' :: b)).findIdx? (· == 0x25) =
      some (utf8 a).length :=
  findIdx_utf8 (by decide) hBefore

theorem findMark_none
    (hNone : '%' ∉ a) :
    (utf8 a).findIdx? (· == 0x25) = none :=
  findIdx_utf8_none (by decide) hNone

/- The bytes behind the mark the loop stands at. -/
theorem getElem_behind
    {k : Nat} :
    (utf8 (pre ++ (mid ++ '%' :: post)))[
      (utf8 pre).length + (utf8 mid).length + 1 + k]? =
      (utf8 post)[k]? := by
  rw [utf8_append, utf8_append, utf8_cons,
    List.getElem?_append_right (by omega),
    List.getElem?_append_right (by omega)]
  have hMark : String.utf8EncodeChar '%' = [0x25] := by decide
  have hIndex : (utf8 pre).length + (utf8 mid).length + 1 + k -
      (utf8 pre).length - (utf8 mid).length = k + 1 := by
    omega
  rw [hMark, hIndex]
  rfl

theorem bytesFrom_behind :
    bytesFrom (utf8 (pre ++ (mid ++ '%' :: post)))
      ((utf8 pre).length + (utf8 mid).length + 1) =
      some (utf8 post) := by
  have hBytes : utf8 (pre ++ (mid ++ '%' :: post)) =
      (utf8 pre ++ utf8 mid ++ [0x25]) ++ utf8 post := by
    have hMark : String.utf8EncodeChar '%' = [0x25] := by decide
    rw [utf8_append, utf8_append, utf8_cons, hMark]
    simp only [List.append_assoc]
  have hLength : (utf8 pre).length + (utf8 mid).length + 1 =
      (utf8 pre ++ utf8 mid ++ [0x25]).length := by
    simp only [List.length_append, List.length_singleton]
  have hLe : (utf8 pre ++ utf8 mid ++ [0x25]).length ≤
      (utf8 pre ++ utf8 mid ++ [0x25] ++ utf8 post).length := by
    simp
  rw [bytesFrom, hBytes, hLength, List.drop_left, if_pos hLe]

/- At an escape the text before it is copied. -/
theorem unescapeAt_escape
    (hHigh : hexValue h = some hi)
    (hLow : hexValue l = some lo) :
    unescapeAt (pre ++ (mid ++ '%' :: h :: l :: rest)) out
      (utf8 pre).length ((utf8 pre).length + (utf8 mid).length) =
      some (out ++ mid ++ [Char.ofNat (16 * hi + lo)],
        (utf8 pre).length + (utf8 mid).length + 3) := by
  rcases byte_of_hexValue hHigh with ⟨v, hv, hSmall, hByte⟩
  rcases byte_of_hexValue hLow with ⟨w, hw, hSmall', hByte'⟩
  have hFirst : (utf8 (pre ++ (mid ++ '%' :: h :: l :: rest)))[
      (utf8 pre).length + (utf8 mid).length + 1]?.bind decodeHexDigit =
      some v := by
    rw [← Nat.add_zero ((utf8 pre).length + (utf8 mid).length + 1),
      getElem_behind]
    exact hByte (l :: rest)
  have hSecond : (utf8 (pre ++ (mid ++ '%' :: h :: l :: rest)))[
      (utf8 pre).length + (utf8 mid).length + 2]?.bind decodeHexDigit =
      some w := by
    have hIndex : (utf8 pre).length + (utf8 mid).length + 2 =
        (utf8 pre).length + (utf8 mid).length + 1 + 1 := rfl
    rw [hIndex, getElem_behind, utf8_cons,
      List.getElem?_append_right (Nat.le_of_eq (hexValue_length hHigh)),
      hexValue_length hHigh]
    exact hByte' rest
  have hChar : Char.ofUInt8 (v * 0x10 + w) = Char.ofNat (16 * hi + lo) := by
    rw [(hexDigit_facts _).2.2.1]
    have hNat : (v * 0x10 + w).toNat = 16 * hi + lo := by
      rw [UInt8.toNat_add, UInt8.toNat_mul, hw, hv]
      have hTen : (0x10 : UInt8).toNat = 16 := rfl
      rw [hTen]
      omega
    rw [hNat]
  rw [unescapeAt, hFirst, hSecond]
  simp only
  rw [sliceBytes_append, Option.map_some, hChar]

/- Elsewhere nothing is copied. -/
theorem unescapeAt_literal
    (hNone : NoEscape post) :
    unescapeAt (pre ++ (mid ++ '%' :: post)) out
      (utf8 pre).length ((utf8 pre).length + (utf8 mid).length) =
      some (out, (utf8 pre).length) := by
  rw [unescapeAt]
  split
  · rename_i v w hFirst hSecond
    rw [← Nat.add_zero ((utf8 pre).length + (utf8 mid).length + 1),
      getElem_behind] at hFirst
    rcases hexValue_of_byte hFirst with ⟨h, rest, rfl, hHigh, _⟩
    have hIndex : (utf8 pre).length + (utf8 mid).length + 2 =
        (utf8 pre).length + (utf8 mid).length + 1 + 1 := rfl
    rw [hIndex, getElem_behind, utf8_cons,
      List.getElem?_append_right (Nat.le_of_eq (hexValue_length hHigh)),
      hexValue_length hHigh] at hSecond
    rcases hexValue_of_byte hSecond with ⟨l, rest, rfl, hLow, _⟩
    rcases hNone h l rest rfl with hh | hl
    · rw [hh] at hHigh
      cases hHigh
    · rw [hl] at hLow
      cases hLow
  · rfl

theorem escape_or_literal
    (post : List Char) :
    (∃ h l rest hi lo, post = h :: l :: rest ∧ hexValue h = some hi ∧
      hexValue l = some lo) ∨ NoEscape post := by
  by_cases hEscape : ∃ h l rest hi lo, post = h :: l :: rest ∧
      hexValue h = some hi ∧ hexValue l = some lo
  · exact Or.inl hEscape
  · refine Or.inr ?_
    intro h l rest hPost
    cases hHigh : hexValue h with
    | none => exact Or.inl rfl
    | some hi =>
        cases hLow : hexValue l with
        | none => exact Or.inr rfl
        | some lo =>
            exact absurd ⟨h, l, rest, hi, lo, hPost, hHigh, hLow⟩ hEscape

/- The turn of the loop behind the step: the rest of the text is copied,
   or the loop goes on at the next mark. -/
theorem unescapeLoop_turn
    {escaped out' : List Char}
    {copied copied' at' : Nat}
    (hStep : unescapeAt escaped out copied at' = some (out', copied'))
    (hRest : bytesFrom (utf8 escaped) (at' + 1) = some (utf8 post)) :
    unescapeLoop escaped out copied at' =
      match (utf8 post).findIdx? (· == 0x25) with
      | some next => unescapeLoop escaped out' copied' (at' + 1 + next)
      | none => (dropBytes escaped copied').map (out' ++ ·) := by
  rw [unescapeLoop, hStep]
  simp only
  split
  · rename_i h
    rw [hRest] at h
    cases h
  · rename_i rest h
    rw [hRest] at h
    cases h
    rfl

/- The loop copies what stands before its mark and decodes from there. -/
theorem unescapeLoop_eq
    (pre mid post out : List Char) :
    unescapeLoop (pre ++ (mid ++ '%' :: post)) out (utf8 pre).length
      ((utf8 pre).length + (utf8 mid).length) =
      some (out ++ mid ++ decode ('%' :: post)) := by
  induction hLength : post.length using Nat.strongRecOn
    generalizing pre mid post out with
  | ind n ih =>
  rcases escape_or_literal post with
    ⟨h, l, rest, hi, lo, rfl, hHigh, hLow⟩ | hNone
  · rw [unescapeLoop_turn (unescapeAt_escape hHigh hLow) bytesFrom_behind,
      decode_escape hHigh hLow]
    have hText : pre ++ (mid ++ '%' :: h :: l :: rest) =
        (pre ++ mid ++ ['%', h, l]) ++ rest := by
      simp
    have hCopied : (utf8 pre).length + (utf8 mid).length + 3 =
        (utf8 (pre ++ mid ++ ['%', h, l])).length := by
      simp only [utf8_append, utf8_cons, utf8_nil, List.length_append,
        hexValue_length hHigh, hexValue_length hLow]
      rfl
    by_cases hMark : '%' ∈ rest
    · rcases List.eq_append_cons_of_mem hMark with ⟨a, b, rfl, hBefore⟩
      have hBefore' : '%' ∉ h :: l :: a := by
        intro hMem
        rcases List.mem_cons.1 hMem with rfl | hMem
        · exact hexValue_ne_mark hHigh rfl
        · rcases List.mem_cons.1 hMem with rfl | hMem
          · exact hexValue_ne_mark hLow rfl
          · exact hBefore hMem
      have hFind := findMark (b := b) hBefore'
      have hNext : (utf8 pre).length + (utf8 mid).length + 1 +
          (utf8 (h :: l :: a)).length =
          (utf8 (pre ++ mid ++ ['%', h, l])).length + (utf8 a).length := by
        rw [← hCopied]
        simp only [utf8_cons, List.length_append, hexValue_length hHigh,
          hexValue_length hLow]
        omega
      have hShort : b.length < n := by
        rw [← hLength]
        simp only [List.length_cons, List.length_append]
        omega
      have hLoop := ih b.length hShort (pre ++ mid ++ ['%', h, l]) a b
        (out ++ mid ++ [Char.ofNat (16 * hi + lo)]) rfl
      rw [← hNext, ← hCopied, ← hText] at hLoop
      rw [List.cons_append, List.cons_append] at hFind
      simp only [hFind]
      rw [hLoop, decode_append hBefore]
      simp
    · have hBefore' : '%' ∉ h :: l :: rest := by
        intro hMem
        rcases List.mem_cons.1 hMem with rfl | hMem
        · exact hexValue_ne_mark hHigh rfl
        · rcases List.mem_cons.1 hMem with rfl | hMem
          · exact hexValue_ne_mark hLow rfl
          · exact hMark hMem
      have hFind := findMark_none hBefore'
      simp only [hFind]
      rw [hText, hCopied, dropBytes_append, decode_of_not_mem hMark]
      simp
  · rw [unescapeLoop_turn (unescapeAt_literal hNone) bytesFrom_behind,
      decode_literal hNone]
    by_cases hMark : '%' ∈ post
    · rcases List.eq_append_cons_of_mem hMark with ⟨a, b, rfl, hBefore⟩
      have hFind := findMark (b := b) hBefore
      have hText : pre ++ (mid ++ '%' :: (a ++ '%' :: b)) =
          pre ++ ((mid ++ '%' :: a) ++ '%' :: b) := by
        simp
      have hNext : (utf8 pre).length + (utf8 mid).length + 1 +
          (utf8 a).length =
          (utf8 pre).length + (utf8 (mid ++ '%' :: a)).length := by
        have hMark : (String.utf8EncodeChar '%').length = 1 := by decide
        simp only [utf8_append, utf8_cons, List.length_append, hMark]
        omega
      have hShort : b.length < n := by
        rw [← hLength]
        simp only [List.length_cons, List.length_append]
        omega
      have hLoop := ih b.length hShort pre (mid ++ '%' :: a) b out rfl
      rw [← hNext, ← hText] at hLoop
      simp only [hFind]
      rw [hLoop, decode_append hBefore]
      simp
    · have hFind := findMark_none hMark
      simp only [hFind]
      rw [dropBytes_append, decode_of_not_mem hMark]
      simp

/- Every slice is in range, and the text is the decoder's. -/
theorem unescape_eq :
    unescape s = some (decode s) := by
  rw [unescape]
  by_cases hMark : '%' ∈ s
  · rcases List.eq_append_cons_of_mem hMark with ⟨a, b, rfl, hBefore⟩
    have hFind := findMark (b := b) hBefore
    have hLoop := unescapeLoop_eq [] a b []
    rw [utf8_nil, List.length_nil, Nat.zero_add] at hLoop
    simp only [hFind]
    rw [List.nil_append] at hLoop
    rw [hLoop, decode_append hBefore]
    simp
  · have hFind := findMark_none hMark
    simp only [hFind]
    rw [decode_of_not_mem hMark]

------------------------------------------------------------
-- Reserved characters
------------------------------------------------------------

theorem reserved_cases
    {P : Char → Prop}
    (hAll : ∀ b ∈ charsToEscape, P (Char.ofNat b.toNat))
    (hReserved : isReserved ch = true) :
    P ch := by
  unfold isReserved at hReserved
  rw [Bool.and_eq_true, decide_eq_true_eq] at hReserved
  have hMem : UInt8.ofNat ch.toNat ∈ charsToEscape :=
    List.contains_iff_mem.1 hReserved.2
  have hNat : (UInt8.ofNat ch.toNat).toNat = ch.toNat := by
    show ch.toNat % 256 = ch.toNat
    omega
  have hP := hAll _ hMem
  rwa [hNat, Char.ofNat_toNat] at hP

theorem ne_mark_of_not_reserved
    (hReserved : isReserved ch = false) :
    ch ≠ '%' := by
  rintro rfl
  exact absurd hReserved (by decide)

/- Digits are neither reserved nor whitespace. -/
theorem digit_plain
    (hHex : hexValue c = some n) :
    isReserved c = false ∧ isWhitespace c = false := by
  have hNat : (UInt8.ofNat c.toNat).toNat = c.toNat := by
    have hAscii := hexValue_ascii hHex
    show c.toNat % 256 = c.toNat
    omega
  have hPlain := (hexDigit_facts (UInt8.ofNat c.toNat)).2.2.2
  rw [(hexDigit_facts _).2.2.1, hNat, Char.ofNat_toNat] at hPlain
  apply hPlain
  rw [hHex]
  rfl

/- A reserved character is written as its number. -/
theorem escapeChar_reserved
    (hReserved : isReserved ch = true) :
    ∃ h l, escapeChar ch = ['%', h, l] ∧
      hexValue h = some (ch.toNat / 16) ∧
        hexValue l = some (ch.toNat % 16) := by
  refine ⟨hexDigit (UInt8.ofNat ch.toNat / 0x10),
    hexDigit (UInt8.ofNat ch.toNat &&& 0x0f), ?_, ?_, ?_⟩
  · rw [escapeChar, if_pos hReserved]
  · exact reserved_cases (P := fun ch => hexValue (hexDigit
      (UInt8.ofNat ch.toNat / 0x10)) = some (ch.toNat / 16))
      (by decide +kernel) hReserved
  · exact reserved_cases (P := fun ch => hexValue (hexDigit
      (UInt8.ofNat ch.toNat &&& 0x0f)) = some (ch.toNat % 16))
      (by decide +kernel) hReserved

theorem escapeChar_plain
    (hReserved : isReserved ch = false) :
    escapeChar ch = [ch] := by
  rw [escapeChar, hReserved]
  rfl

theorem escape_eq
    (s : List Char) :
    escape s = s.flatMap escapeChar := by
  rw [escape]
  split
  · rename_i hNone
    rw [Bool.not_eq_true'] at hNone
    have hPlain : ∀ ch ∈ s, escapeChar ch = [ch] := by
      intro ch hMem
      cases hReserved : isReserved ch with
      | false => exact escapeChar_plain hReserved
      | true =>
          unfold isReserved at hReserved
          rw [Bool.and_eq_true, decide_eq_true_eq] at hReserved
          have hByte : UInt8.ofNat ch.toNat ∈ utf8 s := by
            refine List.mem_flatMap.2 ⟨ch, hMem, ?_⟩
            exact (mem_encode_iff hReserved.1).2 rfl
          exact absurd hReserved.2
            (List.any_eq_false.1 hNone _ hByte)
    rw [List.flatMap_def, List.map_congr_left hPlain,
      ← List.flatMap_def, List.flatMap_singleton']
  · rfl

theorem escape_cons :
    escape (ch :: s) = escapeChar ch ++ escape s := by
  rw [escape_eq, escape_eq, List.flatMap_cons]

theorem escape_append :
    escape (a ++ b) = escape a ++ escape b := by
  rw [escape_eq, escape_eq, escape_eq, List.flatMap_append]

theorem decode_escapeChar :
    decode (escapeChar ch ++ text) = ch :: decode text := by
  cases hReserved : isReserved ch with
  | true =>
      rcases escapeChar_reserved hReserved with ⟨h, l, hChar, hHigh, hLow⟩
      rw [hChar]
      have hValue : 16 * (ch.toNat / 16) + ch.toNat % 16 = ch.toNat := by
        omega
      show decode ('%' :: h :: l :: text) = ch :: decode text
      rw [decode_escape hHigh hLow, hValue, Char.ofNat_toNat]
  | false =>
      rw [escapeChar_plain hReserved]
      exact decode_cons (ne_mark_of_not_reserved hReserved)

theorem decode_escape_text
    (s : List Char) :
    decode (escape s) = s := by
  induction s with
  | nil =>
      rw [escape_eq, List.flatMap_nil, decode_nil]
  | cons ch s ih =>
      rw [escape_cons, decode_escapeChar, ih]

/- A reserved character of an escaped text is the mark of an escape that
   escaping wrote. -/
theorem reserved_in_escape
    {pre post : List Char}
    (hText : escape s = pre ++ c :: post)
    (hReserved : isReserved c = true) :
    c = '%' ∧ ∃ before r after, s = before ++ r :: after ∧
      isReserved r = true ∧ pre = escape before ∧
        c :: post = escapeChar r ++ escape after := by
  induction s generalizing pre with
  | nil =>
      rw [escape_eq, List.flatMap_nil] at hText
      exact absurd hText.symm (by simp)
  | cons ch s ih =>
      rw [escape_cons] at hText
      cases hFirst : isReserved ch with
      | false =>
          rw [escapeChar_plain hFirst] at hText
          cases pre with
          | nil =>
              cases hText
              rw [hFirst] at hReserved
              cases hReserved
          | cons p pre =>
              rcases List.cons_eq_cons.1 hText with ⟨rfl, hTail⟩
              rcases ih hTail with
                ⟨hMark, before, r, after, rfl, hr, hPre, hPost⟩
              refine ⟨hMark, ch :: before, r, after, rfl, hr, ?_, hPost⟩
              rw [escape_cons, escapeChar_plain hFirst, hPre]
              rfl
      | true =>
          rcases escapeChar_reserved hFirst with
            ⟨h, l, hChar, hHigh, hLow⟩
          rw [hChar] at hText
          match pre with
          | [] =>
              refine ⟨?_, [], ch, s, rfl, hFirst, ?_, ?_⟩
              · exact (List.cons_eq_cons.1 hText).1.symm
              · rw [escape_eq, List.flatMap_nil]
              · rw [hChar]
                exact hText.symm
          | [_] =>
              cases hText
              rw [(digit_plain hHigh).1] at hReserved
              cases hReserved
          | [_, _] =>
              cases hText
              rw [(digit_plain hLow).1] at hReserved
              cases hReserved
          | x :: y :: z :: pre =>
              simp only [List.cons_append, List.nil_append,
                List.cons.injEq] at hText
              rcases hText with ⟨hx, hy, hz, hTail⟩
              rcases ih hTail with
                ⟨hMark, before, r, after, rfl, hr, hPre, hPost⟩
              refine ⟨hMark, ch :: before, r, after, rfl, hr, ?_, hPost⟩
              rw [escape_cons, hChar, hPre, ← hx, ← hy, ← hz]
              rfl

/- No whitespace surrounds the text. -/
def Unpadded
    (s : List Char) :
    Prop :=
  (∀ c ∈ s.head?, isWhitespace c = false) ∧
    ∀ c ∈ s.getLast?, isWhitespace c = false

theorem dropWhile_of_head
    {p : Char → Bool}
    (hHead : ∀ c ∈ s.head?, p c = false) :
    s.dropWhile p = s := by
  cases s with
  | nil => rfl
  | cons c s =>
      rw [List.dropWhile_cons, if_neg]
      rw [hHead c rfl]
      exact Bool.false_ne_true

theorem trim_of_unpadded
    (hUnpadded : Unpadded s) :
    trim s = s := by
  have hReverse : ∀ c ∈ s.reverse.head?, isWhitespace c = false := by
    rw [List.head?_reverse]
    exact hUnpadded.2
  rw [trim, dropWhile_of_head hUnpadded.1, dropWhile_of_head hReverse,
    List.reverse_reverse]

/- Escaping a text adds no whitespace at its ends. -/
theorem unpadded_escape
    (hUnpadded : Unpadded s) :
    Unpadded (escape s) := by
  constructor
  · intro c hc
    cases s with
    | nil =>
        rw [escape_eq] at hc
        cases hc
    | cons ch s =>
        rw [escape_cons] at hc
        cases hReserved : isReserved ch with
        | false =>
            rw [escapeChar_plain hReserved] at hc
            exact hUnpadded.1 c hc
        | true =>
            rcases escapeChar_reserved hReserved with ⟨h, l, hChar, _, _⟩
            rw [hChar] at hc
            cases hc
            decide
  · intro c hc
    rcases List.eq_nil_or_concat s with rfl | ⟨init, ch, rfl⟩
    · rw [escape_eq] at hc
      cases hc
    · rw [List.concat_eq_append] at hUnpadded hc
      rw [escape_append, escape_cons] at hc
      have hNil : escape [] = [] := by
        rw [escape_eq, List.flatMap_nil]
      rw [hNil, List.append_nil] at hc
      cases hReserved : isReserved ch with
      | false =>
          rw [escapeChar_plain hReserved, List.getLast?_concat] at hc
          apply hUnpadded.2 c
          rw [List.getLast?_concat]
          exact hc
      | true =>
          rcases escapeChar_reserved hReserved with
            ⟨h, l, hChar, _, hLow⟩
          have hLast : (escape init ++ ['%', h, l]).getLast? = some l := by
            rw [List.getLast?_append]
            rfl
          rw [hChar, hLast] at hc
          cases hc
          exact (digit_plain hLow).2

theorem escape_ne_nil
    (hNe : s ≠ []) :
    escape s ≠ [] := by
  intro hNil
  have hDecode := decode_escape_text s
  rw [hNil, decode_nil] at hDecode
  exact hNe hDecode.symm

theorem separator_not_in_escape :
    ';' ∉ escape s := by
  intro hMem
  rcases List.append_of_mem hMem with ⟨pre, post, hText⟩
  have hMark := (reserved_in_escape hText (by decide)).1
  exact absurd hMark (by decide)

/- A list written with `;` is read back entry by entry. -/
theorem splitList_join
    {items : List (List Char)}
    (hItems : ∀ item ∈ items, item ≠ [] ∧ Unpadded item) :
    (Escaped.mk ([';'].intercalate (items.map escape))).splitList =
      items.map Escaped.fromComputed := by
  rcases items with _ | ⟨first, rest⟩
  · rfl
  · have hNone : ∀ piece ∈ (first :: rest).map escape, ';' ∉ piece := by
      intro piece hPiece
      rcases List.mem_map.1 hPiece with ⟨item, _, rfl⟩
      exact separator_not_in_escape
    have hTrim : ∀ piece ∈ (first :: rest).map escape,
        trim piece = piece := by
      intro piece hPiece
      rcases List.mem_map.1 hPiece with ⟨item, hItem, rfl⟩
      exact trim_of_unpadded (unpadded_escape (hItems item hItem).2)
    have hKeep : ∀ piece ∈ (first :: rest).map escape,
        (!piece.isEmpty) = true := by
      intro piece hPiece
      rcases List.mem_map.1 hPiece with ⟨item, hItem, rfl⟩
      have hNe := escape_ne_nil (hItems item hItem).1
      simpa using hNe
    unfold Escaped.splitList
    rw [List.splitOn_intercalate ';' hNone (by simp),
      List.map_congr_left hTrim, List.map_id', List.filter_eq_self.2 hKeep,
      List.map_map]
    rfl

theorem fromComputed_unescape :
    (Escaped.fromComputed s).unescape = some s := by
  show unescape (escape s) = some s
  rw [unescape_eq, decode_escape_text]

/- Escaping is undone by unescaping and leaves no reserved character, a
   list of escaped entries is read back, and unescaping is the decoder. -/
theorem escaped_domain_laws :
    (∀ s, unescape (escape s) = some s) ∧
    (∀ s pre c post, escape s = pre ++ c :: post → isReserved c = true →
      c = '%' ∧ ∃ before r after, s = before ++ r :: after ∧
        isReserved r = true ∧ pre = escape before ∧
          c :: post = escapeChar r ++ escape after) ∧
    (∀ items : List (List Char),
      (∀ item ∈ items, item ≠ [] ∧ Unpadded item) →
        (Escaped.mk ([';'].intercalate
          (items.map escape))).splitList.mapM Escaped.unescape =
            some items) ∧
    (∀ s, unescape s = some (decode s)) := by
  refine ⟨?_, ?_, ?_, fun s => unescape_eq⟩
  · intro s
    exact fromComputed_unescape
  · intro s pre c post hText hReserved
    exact reserved_in_escape hText hReserved
  · intro items hItems
    rw [splitList_join hItems, List.mapM_map]
    clear hItems
    induction items with
    | nil => rfl
    | cons item items ih =>
        rw [List.mapM_cons, Function.comp_apply, fromComputed_unescape, ih]
        rfl

example : unescape "%2525".toList = some "%25".toList := by
  rw [unescape_eq]
  decide

end MSBuild

end Borzoi
