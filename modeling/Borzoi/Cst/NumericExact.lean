import Borzoi.Cst.Numeric
import Mathlib.Data.Bool.AllAny

/-
  What the checks of integer literals accept.

  Main declarations:
    * `BetweenDigits`
    * `digitsValue`
    * `IntKind.Fits`
    * `integer_literals_exact`
-/

namespace Borzoi

namespace Cst

open Program

/- Every underscore is in a run of underscores between two digits. -/
def BetweenDigits
    (isDigit : Char → Bool)
    (chars : List Char) :
    Prop :=
  ∀ i : Nat, chars[i]? = some '_' →
    (∃ (j : Nat) (c : Char), j < i ∧ chars[j]? = some c ∧
      isDigit c = true ∧ ∀ k : Nat, j < k → k < i → chars[k]? = some '_') ∧
    ∃ (j : Nat) (c : Char), i < j ∧ chars[j]? = some c ∧
      isDigit c = true ∧ ∀ k : Nat, i < k → k < j → chars[k]? = some '_'

/- The number that digits spell. -/
def digitsValue
    (radix : Nat)
    (digits : List Char) :
    Nat :=
  digits.foldl (fun acc c => acc * radix + (toDigit radix c).getD 0) 0

/- A digit, and digits and underscores. -/
def DigitRun
    (isDigit : Char → Bool)
    (body : List Char) :
    Prop :=
  ∃ d rest, body = d :: rest ∧ isDigit d = true ∧
    ∀ c ∈ rest, isDigit c = true ∨ c = '_'

inductive FoldSign
  | bare
  | plus
  | minus
  deriving DecidableEq, Repr

def FoldSign.text :
    FoldSign → List Char
  | .bare => []
  | .plus => ['+']
  | .minus => ['-']

/- The mark of a radix, and its digits. -/
inductive RadixMark
  | hex (upper : Bool)
  | octal (upper : Bool)
  | binary (upper : Bool)
  deriving DecidableEq, Repr

def RadixMark.letter :
    RadixMark → Char
  | .hex upper => if upper then 'X' else 'x'
  | .octal upper => if upper then 'O' else 'o'
  | .binary upper => if upper then 'B' else 'b'

def RadixMark.radix :
    RadixMark → Nat
  | .hex _ => 16
  | .octal _ => 8
  | .binary _ => 2

inductive IntSuffix
  | y
  | uy
  | s
  | us
  | l
  | u
  | ul
  | n
  | un
  | L
  | UL
  | uL
  deriving DecidableEq, Repr

def IntSuffix.text :
    IntSuffix → List Char
  | .y => ['y']
  | .uy => ['u', 'y']
  | .s => ['s']
  | .us => ['u', 's']
  | .l => ['l']
  | .u => ['u']
  | .ul => ['u', 'l']
  | .n => ['n']
  | .un => ['u', 'n']
  | .L => ['L']
  | .UL => ['U', 'L']
  | .uL => ['u', 'L']

def IntSuffix.kind :
    IntSuffix → IntKind
  | .y => .SBYTE_LIT
  | .uy => .BYTE_LIT
  | .s => .INT16_LIT
  | .us => .UINT16_LIT
  | .l => .INT32_LIT
  | .u => .UINT32_LIT
  | .ul => .UINT32_LIT
  | .n => .INTPTR_LIT
  | .un => .UINTPTR_LIT
  | .L => .INT64_LIT
  | .UL => .UINT64_LIT
  | .uL => .UINT64_LIT

def IntKind.bits :
    IntKind → Nat
  | .SBYTE_LIT => 8
  | .BYTE_LIT => 8
  | .INT16_LIT => 16
  | .UINT16_LIT => 16
  | .INT32_LIT => 32
  | .UINT32_LIT => 32
  | .INT64_LIT => 64
  | .UINT64_LIT => 64
  | .INTPTR_LIT => 64
  | .UINTPTR_LIT => 64

def IntKind.signed :
    IntKind → Bool
  | .SBYTE_LIT => true
  | .INT16_LIT => true
  | .INT32_LIT => true
  | .INT64_LIT => true
  | .INTPTR_LIT => true
  | _ => false

/- A decimal number fits the type, or is its minimum behind a minus: by
   value in the narrow types, by its digits in the others. -/
def IntKind.Fits
    (kind : IntKind)
    (sign : FoldSign)
    (digits : List Char) :
    Prop :=
  digitsValue 10 digits <
      2 ^ (if kind.signed then kind.bits - 1 else kind.bits) ∨
    sign = .minus ∧ kind.signed = true ∧
      (if kind.bits ≤ 16 then digitsValue 10 digits = 2 ^ (kind.bits - 1)
        else digits = Nat.toDigits 10 (2 ^ (kind.bits - 1)))

/- The bits of a number fit the type. -/
def IntKind.FitsPattern
    (kind : IntKind)
    (radix : Nat)
    (digits : List Char) :
    Prop :=
  digitsValue radix digits < 2 ^ kind.bits

section Separators

variable {chars : List Char} {i : Nat}

/- The run before an index is of underscores, and ends the text or a
   character that is none. -/
theorem runStart_spec
    (chars : List Char)
    (i : Nat) :
    runStart chars i ≤ i ∧
      (∀ k, runStart chars i ≤ k → k < i → chars[k]? = some '_') ∧
      (0 < runStart chars i →
        chars[runStart chars i - 1]? ≠ some '_') := by
  induction i with
  | zero =>
      refine ⟨Nat.le_refl 0, ?_, ?_⟩
      · intro k _ hLt
        cases hLt
      · intro hPos
        cases hPos
  | succ i ih =>
      unfold runStart
      split
      · next hMark =>
          rcases ih with ⟨hLe, hRun, hStop⟩
          refine ⟨Nat.le_succ_of_le hLe, ?_, hStop⟩
          intro k hFrom hBelow
          rcases Nat.lt_succ_iff_lt_or_eq.1 hBelow with hEarlier | hHere
          · exact hRun k hFrom hEarlier
          · rw [hHere]
            exact hMark
      · next hOther =>
          refine ⟨Nat.le_refl _, ?_, fun _ => hOther⟩
          intro k hFrom hBelow
          omega

theorem runEnd_spec
    (chars : List Char)
    (i : Nat) :
    i ≤ runEnd chars i ∧
      (∀ k, i < k → k ≤ runEnd chars i → chars[k]? = some '_') ∧
      chars[runEnd chars i + 1]? ≠ some '_' := by
  fun_induction runEnd chars i with
  | case1 i hMore ih =>
      rcases ih with ⟨hLe, hRun, hStop⟩
      refine ⟨Nat.le_of_succ_le hLe, ?_, hStop⟩
      intro k hFrom hBelow
      rcases Nat.lt_or_eq_of_le (Nat.succ_le_of_lt hFrom) with
        hLater | hHere
      · exact hRun k hLater hBelow
      · rw [← hHere]
        exact hMore.2
  | case2 i hStop =>
      refine ⟨Nat.le_refl i, ?_, ?_⟩
      · intro k hFrom hBelow
        omega
      · intro hMark
        apply hStop
        exact ⟨(List.getElem?_eq_some_iff.1 hMark).1, hMark⟩

variable {isDigit : Char → Bool}

/- A run has a digit in front when one stands right before it. -/
theorem digit_before_iff
    (hMark : isDigit '_' = false) :
    (decide (0 < runStart chars i) &&
        chars[runStart chars i - 1]?.any isDigit) = true ↔
      ∃ (j : Nat) (c : Char), j < i ∧ chars[j]? = some c ∧
        isDigit c = true ∧
        ∀ k : Nat, j < k → k < i → chars[k]? = some '_' := by
  rcases runStart_spec chars i with ⟨hLe, hRun, hStop⟩
  rw [Bool.and_eq_true, decide_eq_true_eq]
  constructor
  · rintro ⟨hPos, hAny⟩
    cases hGet : chars[runStart chars i - 1]? with
    | none =>
        rw [hGet] at hAny
        cases hAny
    | some c =>
        rw [hGet, Option.any_some] at hAny
        refine ⟨runStart chars i - 1, c, by omega, hGet, hAny, ?_⟩
        intro k hFrom hBelow
        exact hRun k (by omega) hBelow
  · rintro ⟨j, c, hBefore, hGet, hDigit, hBetween⟩
    have hNot : chars[j]? ≠ some '_' := by
      rw [hGet]
      intro hSame
      rw [Option.some.inj hSame, hMark] at hDigit
      cases hDigit
    -- the run starts right behind the digit
    have hStart : runStart chars i = j + 1 := by
      rcases Nat.lt_trichotomy (runStart chars i) (j + 1) with
        hLower | hSame | hHigher
      · exact absurd (hRun j (by omega) hBefore) hNot
      · exact hSame
      · exact absurd (hBetween (runStart chars i - 1) (by omega) (by omega))
          (hStop (by omega))
    rw [hStart, Nat.add_sub_cancel, hGet, Option.any_some]
    exact ⟨Nat.succ_pos j, hDigit⟩

theorem digit_after_iff
    (hMark : isDigit '_' = false) :
    (decide (runEnd chars i + 1 < chars.length) &&
        chars[runEnd chars i + 1]?.any isDigit) = true ↔
      ∃ (j : Nat) (c : Char), i < j ∧ chars[j]? = some c ∧
        isDigit c = true ∧
        ∀ k : Nat, i < k → k < j → chars[k]? = some '_' := by
  rcases runEnd_spec chars i with ⟨hLe, hRun, hStop⟩
  rw [Bool.and_eq_true, decide_eq_true_eq]
  constructor
  · rintro ⟨hLt, hAny⟩
    rw [List.getElem?_eq_getElem hLt, Option.any_some] at hAny
    refine ⟨runEnd chars i + 1, _, by omega,
      List.getElem?_eq_getElem hLt, hAny, ?_⟩
    intro k hFrom hBelow
    exact hRun k hFrom (by omega)
  · rintro ⟨j, c, hAfter, hGet, hDigit, hBetween⟩
    have hNot : chars[j]? ≠ some '_' := by
      rw [hGet]
      intro hSame
      rw [Option.some.inj hSame, hMark] at hDigit
      cases hDigit
    have hEnd : runEnd chars i + 1 = j := by
      rcases Nat.lt_trichotomy (runEnd chars i + 1) j with
        hLower | hSame | hHigher
      · exact absurd (hBetween _ (by omega) hLower) hStop
      · exact hSame
      · exact absurd (hRun j hAfter (by omega)) hNot
    rw [hEnd, hGet, Option.any_some]
    exact ⟨(List.getElem?_eq_some_iff.1 hGet).1, hDigit⟩

theorem separatorsWellPlaced_iff
    (hMark : isDigit '_' = false) :
    separatorsWellPlaced chars isDigit = true ↔
      BetweenDigits isDigit chars := by
  unfold separatorsWellPlaced BetweenDigits
  rw [List.all_eq_true]
  constructor
  · intro hAll i hGet
    have hLt := (List.getElem?_eq_some_iff.1 hGet).1
    have hHere := hAll i (List.mem_range.2 hLt)
    rw [if_neg (not_not_intro hGet), Bool.and_eq_true] at hHere
    exact ⟨(digit_before_iff hMark).1 hHere.1,
      (digit_after_iff hMark).1 hHere.2⟩
  · intro hAll i _
    by_cases hGet : chars[i]? = some '_'
    · rcases hAll i hGet with ⟨hBefore, hAfter⟩
      rw [if_neg (not_not_intro hGet), Bool.and_eq_true]
      exact ⟨(digit_before_iff hMark).2 hBefore,
        (digit_after_iff hMark).2 hAfter⟩
    · rw [if_pos hGet]

end Separators

------------------------------------------------------------
-- Numbers
------------------------------------------------------------

section Numbers

variable {bits radix : Nat} {digits : List Char}

theorem le_foldl_digits
    (digits : List Char)
    (acc : Nat)
    (hRadix : 0 < radix) :
    acc ≤ digits.foldl
      (fun acc c => acc * radix + (toDigit radix c).getD 0) acc := by
  induction digits generalizing acc with
  | nil => exact Nat.le_refl acc
  | cons c rest ih =>
      rw [List.foldl_cons]
      have hStep := ih (acc * radix + (toDigit radix c).getD 0)
      have hGrow : acc ≤ acc * radix := Nat.le_mul_of_pos_right acc hRadix
      omega

/- The steps fail exactly when the number is too large. -/
theorem checkedDigits_eq
    (bits acc : Nat)
    (hRadix : 0 < radix)
    (hDigits : ∀ c ∈ digits, isRadixDigit radix c = true)
    (hAcc : acc < 2 ^ bits) :
    checkedDigits bits radix acc digits =
      let value := digits.foldl
        (fun acc c => acc * radix + (toDigit radix c).getD 0) acc
      if value < 2 ^ bits then some value else none := by
  induction digits generalizing acc with
  | nil =>
      dsimp only [List.foldl_nil]
      rw [checkedDigits, if_pos hAcc]
  | cons c rest ih =>
      have hRest : ∀ d ∈ rest, isRadixDigit radix d = true :=
        fun d hMem => hDigits d (List.mem_cons_of_mem _ hMem)
      rcases Option.isSome_iff_exists.1 (hDigits c List.mem_cons_self) with
        ⟨d, hDigit⟩
      rw [checkedDigits, List.foldl_cons, hDigit]
      dsimp only [Option.getD_some]
      by_cases hSmall : acc * radix + d < 2 ^ bits
      · have hMul : acc * radix < 2 ^ bits := by omega
        rw [if_pos ⟨hMul, hSmall⟩]
        exact ih (acc * radix + d) hRest hSmall
      · have hLarge := le_foldl_digits rest (acc * radix + d)
          hRadix
        rw [if_neg (fun hBoth => hSmall hBoth.2), if_neg]
        omega

theorem toDigit_mark
    {c : Char}
    (hMark : c = '_' ∨ c = '+' ∨ c = '-') :
    toDigit radix c = none := by
  rcases hMark with rfl | rfl | rfl
  · rfl
  · rfl
  · rfl

theorem fromStrRadix_digits
    (hRadix : 0 < radix)
    (hDigits : ∀ c ∈ digits, isRadixDigit radix c = true)
    (hNonempty : digits ≠ []) :
    fromStrRadix bits radix digits =
      if digitsValue radix digits < 2 ^ bits then
        some (digitsValue radix digits)
      else
        none := by
  have hSteps := checkedDigits_eq bits 0 hRadix hDigits
    (Nat.two_pow_pos bits)
  have hNoSign : ∀ rest, digits ≠ '+' :: rest := by
    intro rest hSame
    have hSign := hDigits '+' (by
      rw [hSame]
      exact List.mem_cons_self)
    unfold isRadixDigit at hSign
    rw [toDigit_mark (Or.inr (Or.inl rfl))] at hSign
    cases hSign
  unfold fromStrRadix
  split
  · exact absurd rfl hNonempty
  · exact absurd rfl (hNoSign [])
  · next rest _ => exact absurd rfl (hNoSign rest)
  · exact hSteps

end Numbers

/- Decimal digits in both of the source's spellings. -/
theorem isRadixDigit_ten
    (c : Char) :
    isRadixDigit 10 c = c.isDigit := by
  have hSame : c.isDigit = true ↔ '0' ≤ c ∧ c ≤ '9' := by
    unfold Char.isDigit
    rw [Bool.and_eq_true, decide_eq_true_eq, decide_eq_true_eq]
    exact Iff.rfl
  rw [Bool.eq_iff_iff, hSame]
  unfold isRadixDigit toDigit
  dsimp only
  constructor
  · intro hSome
    by_contra hNot
    rw [if_neg hNot] at hSome
    -- a letter is worth ten or more
    split at hSome
    · rw [Option.filter_some, if_neg (by
        rw [decide_eq_true_eq]
        omega)] at hSome
      cases hSome
    · split at hSome
      · rw [Option.filter_some, if_neg (by
          rw [decide_eq_true_eq]
          omega)] at hSome
        cases hSome
      · cases hSome
  · intro hDigit
    have hLow : '0'.toNat ≤ c.toNat := hDigit.1
    have hHigh : c.toNat ≤ '9'.toNat := hDigit.2
    have hNine : '9'.toNat = '0'.toNat + 9 := rfl
    rw [if_pos hDigit, Option.filter_some, if_pos]
    · rfl
    · rw [decide_eq_true_eq]
      omega

section Parts

variable {isDigit : Char → Bool} {body : List Char}

/- A predicate of digits: no sign, no separator, no suffix is one. -/
structure Digits
    (isDigit : Char → Bool) :
    Prop where
  marks : ∀ c ∈ ['_', '+', '-', 'u', 'U'], isDigit c = false
  letters : ∀ c ∈ ['x', 'X', 'o', 'O', 'y', 's', 'l', 'L', 'n'],
    isDigit c = false

theorem DigitRun.cleaned
    (hRun : DigitRun isDigit body)
    (hDigits : Digits isDigit) :
    withoutSeparators body ≠ [] ∧
      ∀ c ∈ withoutSeparators body, isDigit c = true := by
  rcases hRun with ⟨d, rest, rfl, hHead, hRest⟩
  have hMark := hDigits.marks '_' List.mem_cons_self
  have hNotMark : (d != '_') = true := by
    rw [bne_iff_ne]
    rintro rfl
    rw [hHead] at hMark
    cases hMark
  unfold withoutSeparators
  rw [List.filter_cons_of_pos (p := fun c => c != '_') hNotMark]
  refine ⟨List.cons_ne_nil _ _, ?_⟩
  intro c hMem
  rcases List.mem_cons.1 hMem with hHere | hLater
  · rw [hHere]
    exact hHead
  · rcases List.mem_filter.1 hLater with ⟨hIn, hKept⟩
    rcases hRest c hIn with hDigit | hUnderscore
    · exact hDigit
    · rw [hUnderscore] at hKept
      cases hKept

/- The sign is split off a text that starts with none of its own. -/
theorem splitFoldSign_sign
    {text : List Char}
    (sign : FoldSign)
    (hNoMinus : ∀ rest, text ≠ '-' :: rest)
    (hNoPlus : ∀ rest, text ≠ '+' :: rest) :
    splitFoldSign (sign.text ++ text) = (decide (sign = .minus), text) := by
  cases sign with
  | bare =>
      change splitFoldSign text = _
      unfold splitFoldSign
      split
      · next rest => exact absurd rfl (hNoMinus rest)
      · next rest => exact absurd rfl (hNoPlus rest)
      · rfl
  | plus => rfl
  | minus => rfl

theorem DigitRun.no_sign
    (hRun : DigitRun isDigit body)
    (hDigits : Digits isDigit)
    {sign : Char}
    (hSign : sign = '-' ∨ sign = '+')
    (tail rest : List Char) :
    body ++ tail ≠ sign :: rest := by
  rcases hRun with ⟨d, others, rfl, hHead, -⟩
  intro hSame
  have hFirst : d = sign := (List.cons.inj hSame).1
  have hNot : isDigit sign = false := by
    apply hDigits.marks
    rcases hSign with rfl | rfl
    · exact List.mem_of_getElem? (i := 2) rfl
    · exact List.mem_of_getElem? (i := 1) rfl
  rw [hFirst, hNot] at hHead
  cases hHead

theorem stripSuffix_eq
    (suffix text : List Char) :
    stripSuffix suffix text =
      if suffix.reverse.isPrefixOf text.reverse then
        some (text.reverse.drop suffix.length).reverse
      else
        none := by
  unfold stripSuffix List.isSuffixOf
  rw [List.drop_reverse, List.reverse_reverse]

/- Of the suffixes the longest that ends the text is the one that was
   written, since no body ends in a letter that a suffix starts with. -/
theorem splitIntSuffix_suffix
    (suffix : IntSuffix)
    (hLast : ∀ c ∈ body.getLast?, c ≠ 'u' ∧ c ≠ 'U') :
    splitIntSuffix (body ++ suffix.text) = some (suffix.kind, body) := by
  rw [List.getLast?_eq_head?_reverse] at hLast
  have hBody : body = body.reverse.reverse := body.reverse_reverse.symm
  generalize body.reverse = back at hLast hBody
  subst hBody
  -- the tests read the text from its end, past the suffix
  unfold splitIntSuffix suffixTable
  simp only [List.findSome?_cons, stripSuffix_eq, List.reverse_append,
    List.reverse_reverse, List.findSome?_nil]
  cases back with
  | nil => cases suffix <;> rfl
  | cons c back =>
      rcases hLast c rfl with ⟨hLower, hUpper⟩
      cases suffix <;> simp [IntSuffix.text, IntSuffix.kind, Ne.symm hLower,
        Ne.symm hUpper]

theorem DigitRun.last
    (hRun : DigitRun isDigit body)
    (hDigits : Digits isDigit) :
    ∀ c ∈ body.getLast?, c ≠ 'u' ∧ c ≠ 'U' := by
  intro c hLast
  have hMem : c ∈ body := List.mem_of_getLast? hLast
  have hKind : isDigit c = true ∨ c = '_' := by
    rcases hRun with ⟨d, rest, rfl, hHead, hRest⟩
    rcases List.mem_cons.1 hMem with hHere | hLater
    · rw [hHere]
      exact Or.inl hHead
    · exact hRest c hLater
  have hLower := hDigits.marks 'u' (List.mem_of_getElem? (i := 3) rfl)
  have hUpper := hDigits.marks 'U' (List.mem_of_getElem? (i := 4) rfl)
  rcases hKind with hDigit | hMark
  · constructor
    · rintro rfl
      rw [hLower] at hDigit
      cases hDigit
    · rintro rfl
      rw [hUpper] at hDigit
      cases hDigit
  · rw [hMark]
    decide

end Parts

theorem decimalDigits :
    Digits Char.isDigit :=
  ⟨List.all_iff_forall_prop.1 (by decide), List.all_iff_forall_prop.1 (by decide)⟩

theorem radixDigits
    (mark : RadixMark) :
    Digits (isRadixDigit mark.radix) := by
  have hRadix : ∀ radix ∈ [16, 8, 2],
      (['_', '+', '-', 'u', 'U'].all fun c =>
        decide (isRadixDigit radix c = false)) ∧
      ['x', 'X', 'o', 'O', 'y', 's', 'l', 'L', 'n'].all fun c =>
        decide (isRadixDigit radix c = false) := by
    decide
  have hMem : mark.radix ∈ [16, 8, 2] := by
    cases mark with
    | hex => exact List.mem_of_getElem? (i := 0) rfl
    | octal => exact List.mem_of_getElem? (i := 1) rfl
    | binary => exact List.mem_of_getElem? (i := 2) rfl
  exact ⟨List.all_iff_forall_prop.1 (hRadix _ hMem).1,
    List.all_iff_forall_prop.1 (hRadix _ hMem).2⟩

/- The text of a literal with a mark, behind its sign. -/
def RadixMark.marked
    (mark : RadixMark)
    (body : List Char) :
    List Char :=
  '0' :: mark.letter :: body

theorem xintSplit_marked
    {ε : Type}
    (mark : RadixMark)
    (body : List Char) :
    (xintSplit (mark.marked body) : Run ε (Nat × List Char)) =
      .ok (mark.radix, body) := by
  rcases mark with upper | upper | upper
  · cases upper <;> rfl
  · cases upper <;> rfl
  · cases upper <;> rfl

theorem badMax_digits :
    int32BadMax = Nat.toDigits 10 (2 ^ 31) ∧
      int64BadMax = Nat.toDigits 10 (2 ^ 63) ∧
      digitsValue 10 (Nat.toDigits 10 (2 ^ 31)) = 2 ^ 31 ∧
      digitsValue 10 (Nat.toDigits 10 (2 ^ 63)) = 2 ^ 63 := by
  decide

theorem IntKind.bits_cases
    (kind : IntKind) :
    kind.bits = 8 ∨ kind.bits = 16 ∨ kind.bits = 32 ∨ kind.bits = 64 := by
  cases kind <;> decide

theorem IntKind.bits_le
    (kind : IntKind) :
    kind.bits ≤ 64 := by
  have hBits := kind.bits_cases
  omega

variable {sign : FoldSign} {digits : List Char}

/- The minimum has one value, however it has to be spelled. -/
theorem IntKind.min_value
    {kind : IntKind}
    (hMin : if kind.bits ≤ 16 then
        digitsValue 10 digits = 2 ^ (kind.bits - 1)
      else
        digits = Nat.toDigits 10 (2 ^ (kind.bits - 1))) :
    digitsValue 10 digits = 2 ^ (kind.bits - 1) := by
  rcases badMax_digits with ⟨-, -, hShort, hLong⟩
  split at hMin
  · exact hMin
  · next hWide =>
      rw [hMin]
      have hBits : kind.bits = 32 ∨ kind.bits = 64 := by
        have hCases := kind.bits_cases
        omega
      rcases hBits with hBits | hBits
      · rw [hBits]
        exact hShort
      · rw [hBits]
        exact hLong

theorem IntKind.Fits.lt
    {kind : IntKind}
    (hFits : kind.Fits sign digits) :
    digitsValue 10 digits < 2 ^ 64 := by
  have hBits := kind.bits_le
  rcases hFits with hSmall | ⟨-, -, hMin⟩
  · apply Nat.lt_of_lt_of_le hSmall
    apply Nat.pow_le_pow_right (Nat.succ_pos 1)
    split
    · omega
    · exact hBits
  · rw [IntKind.min_value hMin]
    have hCases := kind.bits_cases
    apply Nat.pow_lt_pow_right (Nat.lt_succ_self 1)
    omega

/- The test of a decimal number. -/
theorem intValueInRange_fits
    {kind : IntKind}
    (hSmall : digitsValue 10 digits < 2 ^ 64) :
    (intValueInRange kind (digitsValue 10 digits) false ||
        (decide (sign = .minus) &&
          isSignedMinValue kind digits (digitsValue 10 digits))) = true ↔
      kind.Fits sign digits := by
  rcases badMax_digits with ⟨hInt32, hInt64, -, -⟩
  unfold IntKind.Fits
  rw [Bool.or_eq_true, Bool.and_eq_true, decide_eq_true_eq]
  generalize digitsValue 10 digits = value at hSmall
  apply or_congr
  · cases kind <;>
      simp only [intValueInRange, IntKind.signed, IntKind.bits,
        decide_eq_true_eq, if_true, Bool.false_eq_true, if_false,
        true_iff] <;> omega
  · apply and_congr_right
    intro _
    cases kind <;>
      simp [isSignedMinValue, IntKind.signed, IntKind.bits, hInt32, hInt64]

/- The test of the bits of a number. -/
theorem intValueInRange_pattern
    {kind : IntKind}
    {value : Nat}
    (hSmall : value < 2 ^ 64) :
    intValueInRange kind value true = true ↔ value < 2 ^ kind.bits := by
  cases kind <;>
    simp only [intValueInRange, IntKind.bits, decide_eq_true_eq, if_true,
      true_iff] <;>
    omega

------------------------------------------------------------
-- Literals
------------------------------------------------------------

/- What is accepted of a decimal literal. -/
def DecimalAccepted
    (kind : IntKind)
    (sign : FoldSign)
    (body : List Char) :
    Prop :=
  BetweenDigits Char.isDigit body ∧
    kind.Fits sign (withoutSeparators body)

/- What is accepted of a literal with the mark of a radix. -/
def PatternAccepted
    (kind : IntKind)
    (mark : RadixMark)
    (body : List Char) :
    Prop :=
  BetweenDigits (isRadixDigit mark.radix) body ∧
    kind.FitsPattern mark.radix (withoutSeparators body)

section Literals

variable {sign : FoldSign} {mark : RadixMark} {body : List Char}

theorem decimal_value
    (hRun : DigitRun Char.isDigit body) :
    fromStrRadix 64 10 (withoutSeparators body) =
      if digitsValue 10 (withoutSeparators body) < 2 ^ 64 then
        some (digitsValue 10 (withoutSeparators body))
      else
        none := by
  rcases hRun.cleaned decimalDigits with ⟨hNonempty, hDigits⟩
  apply fromStrRadix_digits (Nat.succ_pos 9) _ hNonempty
  intro c hMem
  rw [isRadixDigit_ten]
  exact hDigits c hMem

theorem radix_value
    (bits : Nat)
    (hRun : DigitRun (isRadixDigit mark.radix) body) :
    fromStrRadix bits mark.radix (withoutSeparators body) =
      if digitsValue mark.radix (withoutSeparators body) < 2 ^ bits then
        some (digitsValue mark.radix (withoutSeparators body))
      else
        none := by
  rcases hRun.cleaned (radixDigits mark) with ⟨hNonempty, hDigits⟩
  have hPos : 0 < mark.radix := by
    cases mark with
    | hex => exact Nat.succ_pos 15
    | octal => exact Nat.succ_pos 7
    | binary => exact Nat.succ_pos 1
  exact fromStrRadix_digits hPos hDigits hNonempty

theorem decimal_sign
    (sign : FoldSign)
    (tail : List Char)
    (hRun : DigitRun Char.isDigit body) :
    splitFoldSign (sign.text ++ (body ++ tail)) =
      (decide (sign = .minus), body ++ tail) :=
  splitFoldSign_sign sign
    (hRun.no_sign decimalDigits (Or.inl rfl) tail)
    (hRun.no_sign decimalDigits (Or.inr rfl) tail)

theorem marked_sign
    (sign : FoldSign)
    (mark : RadixMark)
    (body tail : List Char) :
    splitFoldSign (sign.text ++ (mark.marked body ++ tail)) =
      (decide (sign = .minus), mark.marked body ++ tail) := by
  apply splitFoldSign_sign sign
  · intro rest hSame
    have hHead := (List.cons.inj hSame).1
    revert hHead
    decide
  · intro rest hSame
    have hHead := (List.cons.inj hSame).1
    revert hHead
    decide

/- The range of the plain literals is that of the suffix for 32 bits. -/
theorem int32_fits
    {digits : List Char} :
    IntKind.INT32_LIT.Fits sign digits ↔
      digitsValue 10 digits ≤ 2 ^ 31 - 1 ∨
        sign = .minus ∧ digits = int32BadMax := by
  rw [badMax_digits.1]
  unfold IntKind.Fits
  apply or_congr
  · change digitsValue 10 digits < 2 ^ 31 ↔ _
    omega
  · rw [if_neg (by decide)]
    exact and_congr_right fun _ => and_iff_right rfl

/- `validate_decimal_int` on the text of a decimal literal. -/
theorem validateDecimalInt_exact
    (hRun : DigitRun Char.isDigit body) :
    validateDecimalInt (sign.text ++ body) = .ok () ↔
      DecimalAccepted .INT32_LIT sign body := by
  have hSign := decimal_sign sign [] hRun
  rw [List.append_nil] at hSign
  unfold validateDecimalInt DecimalAccepted
  rw [hSign, ← separatorsWellPlaced_iff (by decide), int32_fits]
  dsimp only
  cases hSeparators : separatorsWellPlaced body Char.isDigit with
  | false =>
      constructor
      · intro hOk
        cases hOk
      · rintro ⟨hFalse, -⟩
        cases hFalse
  | true =>
      have hSmall :
          (fromStrRadix 64 10 (withoutSeparators body)).any
              (fun v => decide (v ≤ 2 ^ 31 - 1)) = true ↔
            digitsValue 10 (withoutSeparators body) ≤ 2 ^ 31 - 1 := by
        rw [decimal_value hRun]
        split
        · rw [Option.any_some, decide_eq_true_eq]
        · next hLarge =>
            constructor
            · intro hAny
              cases hAny
            · intro hLe
              omega
      rw [if_neg (by decide), ← hSmall]
      split
      · next hAny =>
          exact ⟨fun _ => ⟨rfl, Or.inl hAny⟩, fun _ => rfl⟩
      · next hNone =>
          split
          · next hMin =>
              rw [Bool.and_eq_true, decide_eq_true_eq,
                decide_eq_true_eq] at hMin
              exact ⟨fun _ => ⟨rfl, Or.inr hMin⟩, fun _ => rfl⟩
          · next hOther =>
              rw [Bool.and_eq_true, decide_eq_true_eq,
                decide_eq_true_eq] at hOther
              constructor
              · intro hOk
                cases hOk
              · rintro ⟨-, hFits⟩
                exact absurd hFits (not_or.2 ⟨hNone, hOther⟩)

/- `validate_xint_int32` on the text of a literal with a mark. -/
theorem validateXintInt32_exact
    (sign : FoldSign)
    (hRun : DigitRun (isRadixDigit mark.radix) body) :
    (PatternAccepted .INT32_LIT mark body →
      validateXintInt32 (sign.text ++ mark.marked body) = .ok ()) ∧
    (¬ PatternAccepted .INT32_LIT mark body →
      validateXintInt32 (sign.text ++ mark.marked body) = refuseWith ()) := by
  have hSign := marked_sign sign mark body []
  rw [List.append_nil] at hSign
  have hMark := (radixDigits mark).marks '_' List.mem_cons_self
  have hValue := radix_value 32 hRun
  unfold validateXintInt32 PatternAccepted IntKind.FitsPattern
  rw [hSign, ← separatorsWellPlaced_iff hMark]
  dsimp only
  rw [xintSplit_marked]
  change (_ → (if !separatorsWellPlaced body (isRadixDigit mark.radix) then
      refuseWith () else _) = _) ∧ (_ → (if _ then _ else _) = _)
  cases hSeparators :
      separatorsWellPlaced body (isRadixDigit mark.radix) with
  | false => exact ⟨fun hTrue => absurd hTrue.1 Bool.false_ne_true, fun _ => rfl⟩
  | true =>
      rw [hValue]
      dsimp only [IntKind.bits, Bool.not_true]
      by_cases hSmall :
          digitsValue mark.radix (withoutSeparators body) < 2 ^ 32
      · rw [if_pos hSmall]
        exact ⟨fun _ => rfl, fun hNot => absurd ⟨rfl, hSmall⟩ hNot⟩
      · rw [if_neg hSmall]
        exact ⟨fun hBoth => absurd hBoth.2 hSmall, fun _ => rfl⟩

/- Behind its sign a decimal text starts with no mark of a radix. -/
theorem decimal_not_marked
    (suffix : IntSuffix)
    (hRun : DigitRun Char.isDigit body) :
    (["0x", "0X", "0o", "0O", "0b", "0B"].any fun mark =>
      mark.toList.isPrefixOf (body ++ suffix.text)) = false := by
  have hSecond : ∀ c ∈ (body ++ suffix.text)[1]?,
      c ∉ ['x', 'X', 'o', 'O', 'b', 'B'] := by
    intro c hGet hLetter
    rcases hRun with ⟨d, rest, rfl, hHead, hRest⟩
    cases rest with
    | nil =>
        have hNone : suffix.text[0]?.all
            (· ∉ ['x', 'X', 'o', 'O', 'b', 'B']) = true := by
          cases suffix <;> decide
        exact of_decide_eq_true (Option.all_eq_true _ _ |>.1 hNone c hGet) hLetter
    | cons e others =>
        have hSame : e = c := Option.some.inj hGet
        rcases hRest e List.mem_cons_self with hDigit | hMark
        · rw [hSame] at hDigit
          have hNone : ∀ c ∈ ['x', 'X', 'o', 'O', 'b', 'B'],
              c.isDigit = false :=
            List.all_iff_forall_prop.1 (by decide)
          rw [hNone c hLetter] at hDigit
          cases hDigit
        · rw [← hSame, hMark] at hLetter
          revert hLetter
          decide
  rw [List.any_eq_false]
  intro mark hMem hPrefix
  rcases List.isPrefixOf_iff_prefix.1 hPrefix with ⟨tail, hText⟩
  have hLetter : ∀ mark ∈ ["0x", "0X", "0o", "0O", "0b", "0B"],
      ∃ c ∈ ['x', 'X', 'o', 'O', 'b', 'B'], mark.toList = ['0', c] := by
    simp
  rcases hLetter mark hMem with ⟨c, hIn, hChars⟩
  apply hSecond c _ hIn
  rw [← hText, hChars]
  rfl

theorem marked_is_marked
    (mark : RadixMark)
    (tail : List Char) :
    (["0x", "0X", "0o", "0O", "0b", "0B"].any fun text =>
      text.toList.isPrefixOf (mark.marked body ++ tail)) = true := by
  rcases mark with upper | upper | upper
  · cases upper <;> rfl
  · cases upper <;> rfl
  · cases upper <;> rfl

variable {minus : Bool}

/- The steps of the two classifiers, behind the parts of the text. -/
theorem classifyIntSuffixed_split
    {text rest : List Char}
    {kind : IntKind}
    (hSign : splitFoldSign text = (minus, rest))
    (hSplit : splitIntSuffix rest = some (kind, body)) :
    classifyIntSuffixed text =
      if !separatorsWellPlaced body Char.isDigit then
        refuseWith .OutOfRange
      else
        (orFail .OutOfRange (fromStrRadix 64 10 (withoutSeparators body)) :
          Run IntSuffixedError Nat).bind fun value =>
        if intValueInRange kind value false ||
            (minus && isSignedMinValue kind (withoutSeparators body) value) then
          .ok kind
        else
          refuseWith .OutOfRange := by
  unfold classifyIntSuffixed
  rw [hSign]
  dsimp only
  rw [hSplit]
  rfl

theorem classifyXintSuffixed_split
    {text : List Char}
    {kind : IntKind}
    {tail : List Char}
    (hSign : splitFoldSign text = (minus, tail))
    (hSplit : splitIntSuffix tail = some (kind, mark.marked body)) :
    classifyXintSuffixed text =
      if !separatorsWellPlaced body (isRadixDigit mark.radix) then
        refuseWith .OutOfRange
      else
        (orFail .OutOfRange
            (fromStrRadix 64 mark.radix (withoutSeparators body)) :
          Run IntSuffixedError Nat).bind fun value =>
        if intValueInRange kind value true then
          .ok kind
        else
          refuseWith .OutOfRange := by
  unfold classifyXintSuffixed
  rw [hSign]
  dsimp only
  rw [hSplit]
  change (xintSplit (mark.marked body)).bind _ = _
  rw [xintSplit_marked]
  rfl

/- `classify_suffixed_int` on a decimal literal with a suffix. -/
theorem classify_decimal_exact
    (sign : FoldSign)
    (suffix : IntSuffix)
    (hRun : DigitRun Char.isDigit body) :
    (DecimalAccepted suffix.kind sign body →
      classifySuffixedInt (sign.text ++ (body ++ suffix.text)) =
        .ok suffix.kind) ∧
    (¬ DecimalAccepted suffix.kind sign body →
      classifySuffixedInt (sign.text ++ (body ++ suffix.text)) =
        refuseWith .OutOfRange) := by
  have hSign := decimal_sign sign suffix.text hRun
  have hSplit := splitIntSuffix_suffix suffix (hRun.last decimalDigits)
  have hPath : classifySuffixedInt (sign.text ++ (body ++ suffix.text)) =
      classifyIntSuffixed (sign.text ++ (body ++ suffix.text)) := by
    unfold classifySuffixedInt
    rw [hSign]
    dsimp only
    rw [decimal_not_marked suffix hRun, if_neg Bool.false_ne_true]
  unfold DecimalAccepted
  rw [hPath, classifyIntSuffixed_split hSign hSplit, decimal_value hRun,
    ← separatorsWellPlaced_iff (by decide)]
  cases hSeparators : separatorsWellPlaced body Char.isDigit with
  | false => exact ⟨fun hTrue => absurd hTrue.1 Bool.false_ne_true, fun _ => rfl⟩
  | true =>
      rw [if_neg (by decide)]
      by_cases hSmall : digitsValue 10 (withoutSeparators body) < 2 ^ 64
      · rw [if_pos hSmall, ← intValueInRange_fits hSmall]
        change (_ → (if _ then _ else _) = _) ∧
          (_ → (if _ then _ else _) = _)
        constructor
        · intro hBoth
          exact if_pos hBoth.2
        · intro hNot
          exact if_neg fun hFits => hNot ⟨rfl, hFits⟩
      · rw [if_neg hSmall]
        exact ⟨fun hBoth => absurd hBoth.2.lt hSmall, fun _ => rfl⟩

/- `classify_suffixed_int` on a literal with a mark and a suffix. -/
theorem classify_marked_exact
    (sign : FoldSign)
    (suffix : IntSuffix)
    (hRun : DigitRun (isRadixDigit mark.radix) body) :
    (PatternAccepted suffix.kind mark body →
      classifySuffixedInt (sign.text ++ (mark.marked body ++ suffix.text)) =
        .ok suffix.kind) ∧
    (¬ PatternAccepted suffix.kind mark body →
      classifySuffixedInt (sign.text ++ (mark.marked body ++ suffix.text)) =
        refuseWith .OutOfRange) := by
  have hSign := marked_sign sign mark body suffix.text
  have hDigits := radixDigits mark
  have hMark := hDigits.marks '_' List.mem_cons_self
  have hLast : ∀ c ∈ (mark.marked body).getLast?, c ≠ 'u' ∧ c ≠ 'U' := by
    rcases hRun with ⟨d, rest, rfl, hHead, hRest⟩
    have hRun' : DigitRun (isRadixDigit mark.radix) (d :: rest) :=
      ⟨d, rest, rfl, hHead, hRest⟩
    unfold RadixMark.marked
    rw [List.getLast?_cons_cons, List.getLast?_cons_cons]
    exact hRun'.last hDigits
  have hSplit := splitIntSuffix_suffix suffix hLast
  have hPath :
      classifySuffixedInt (sign.text ++ (mark.marked body ++ suffix.text)) =
      classifyXintSuffixed
        (sign.text ++ (mark.marked body ++ suffix.text)) := by
    unfold classifySuffixedInt
    rw [hSign]
    dsimp only
    rw [marked_is_marked mark suffix.text, if_pos rfl]
  unfold PatternAccepted IntKind.FitsPattern
  rw [hPath, classifyXintSuffixed_split hSign hSplit, radix_value 64 hRun,
    ← separatorsWellPlaced_iff hMark]
  cases hSeparators :
      separatorsWellPlaced body (isRadixDigit mark.radix) with
  | false => exact ⟨fun hTrue => absurd hTrue.1 Bool.false_ne_true, fun _ => rfl⟩
  | true =>
      rw [if_neg (by decide)]
      by_cases hSmall :
          digitsValue mark.radix (withoutSeparators body) < 2 ^ 64
      · rw [if_pos hSmall, ← intValueInRange_pattern hSmall]
        change (_ → (if _ then _ else _) = _) ∧
          (_ → (if _ then _ else _) = _)
        constructor
        · intro hBoth
          exact if_pos hBoth.2
        · intro hNot
          exact if_neg fun hFits => hNot ⟨rfl, hFits⟩
      · rw [if_neg hSmall]
        refine ⟨fun hBoth => absurd ?_ hSmall, fun _ => rfl⟩
        apply Nat.lt_of_lt_of_le hBoth.2
        exact Nat.pow_le_pow_right (Nat.succ_pos 1) suffix.kind.bits_le

end Literals

/- The body of a literal: digits and underscores behind a digit. -/
structure Body
    (isDigit : Char → Bool) where
  chars : List Char
  run : DigitRun isDigit chars

/-
  The plain literals are accepted, and the literals with a suffix get
  its kind, exactly when their underscores lie between digits and their
  number fits.  No other end is left, a panic least of all.
-/
theorem integer_literals_exact
    (sign : FoldSign)
    (mark : RadixMark)
    (suffix : IntSuffix)
    (decimal : Body Char.isDigit)
    (pattern : Body (isRadixDigit mark.radix)) :
    (validateDecimalInt (sign.text ++ decimal.chars) = .ok () ↔
      DecimalAccepted .INT32_LIT sign decimal.chars) ∧
    ((PatternAccepted .INT32_LIT mark pattern.chars →
        validateXintInt32 (sign.text ++ mark.marked pattern.chars) =
          .ok ()) ∧
      (¬ PatternAccepted .INT32_LIT mark pattern.chars →
        validateXintInt32 (sign.text ++ mark.marked pattern.chars) =
          refuseWith ())) ∧
    ((DecimalAccepted suffix.kind sign decimal.chars →
        classifySuffixedInt
            (sign.text ++ (decimal.chars ++ suffix.text)) =
          .ok suffix.kind) ∧
      (¬ DecimalAccepted suffix.kind sign decimal.chars →
        classifySuffixedInt
            (sign.text ++ (decimal.chars ++ suffix.text)) =
          refuseWith .OutOfRange)) ∧
    ((PatternAccepted suffix.kind mark pattern.chars →
        classifySuffixedInt
            (sign.text ++ (mark.marked pattern.chars ++ suffix.text)) =
          .ok suffix.kind) ∧
      (¬ PatternAccepted suffix.kind mark pattern.chars →
        classifySuffixedInt
            (sign.text ++ (mark.marked pattern.chars ++ suffix.text)) =
          refuseWith .OutOfRange)) :=
  ⟨validateDecimalInt_exact decimal.run,
    validateXintInt32_exact sign pattern.run,
    classify_decimal_exact sign suffix decimal.run,
    classify_marked_exact sign suffix pattern.run⟩

/- The minimum is saved by its sign, in its own spelling. -/
example :
    (["-2147483648", "2147483648", "-02147483648"].map
      fun text => (validateDecimalInt text.toList).isOk) =
      [true, false, false] := by
  decide

end Cst

end Borzoi
