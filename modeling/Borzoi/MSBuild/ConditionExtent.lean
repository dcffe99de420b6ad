import Borzoi.MSBuild.ConditionGrammar
import Borzoi.MSBuild.ConditionReads
import Mathlib.Data.List.Induction
import Mathlib.Data.List.TakeWhile

/-
  The extent of a bare property expression.

  Both scanners read the interior of an expression as text, closed string
  literals and closed groups.  The tokeniser's scanner knows literals in
  single quotes only, the expression scanner all three delimiters.

  Main declarations:
    * `Interior`
    * `Outside`
    * `PropertyOperand`
    * `Scans`
    * `findClose_iff`
    * `property_tokens_complete_iff`
-/

namespace Borzoi

namespace MSBuild

open NuGet (trim)

/- The interior of an expression: its literals are closed by their own
   delimiter and its parentheses outside literals match. -/
inductive Interior
    (delim : Char → Bool) :
    List Char → Prop
  | nil :
      Interior delim []
  | plain {c t} :
      delim c = false → c ≠ '(' → c ≠ ')' →
      Interior delim t → Interior delim (c :: t)
  | literal {d body t} :
      delim d = true → d ∉ body →
      Interior delim t → Interior delim (d :: (body ++ d :: t))
  | group {inner t} :
      Interior delim inner →
      Interior delim t → Interior delim ('(' :: (inner ++ ')' :: t))

/- An expression as one of its scanners understands it. -/
def WellFormedExpression
    (raw : List Char) :
    Prop :=
  ∃ inner, raw = expression inner ∧ Interior isStringDelim inner

/- The matching close of an expression is its last character. -/
def Complete
    (raw : List Char) :
    Prop :=
  ∃ after, raw = '$' :: '(' :: after ∧ after ≠ [] ∧
    findClose after = some (after.length - 1)

/- The delimiter the tokeniser knows. -/
def isSingleQuote
    (c : Char) :
    Bool :=
  c == '\''

/- A text up to which string literals in single quotes and expressions are
   closed, the latter as the tokeniser's scanner closes them. -/
inductive Outside :
    List Char → Prop
  | nil :
      Outside []
  | plain {c t} :
      c ≠ '\'' → c ≠ '$' → Outside t → Outside (c :: t)
  | string {body t} :
      '\'' ∉ body → Outside t → Outside ('\'' :: (body ++ '\'' :: t))
  | operand {inner t} :
      Interior isSingleQuote inner →
      Outside t → Outside (expression inner ++ t)

def trimAscii
    (s : List Char) :
    List Char :=
  trimAsciiEnd (trimAsciiStart s)

/- A bare expression of a text, other than the two kinds of version calls
   that have tokens of their own. -/
def PropertyOperand
    (source inner : List Char) :
    Prop :=
  ∃ u v, source = u ++ expression inner ++ v ∧ Outside u ∧
    Interior isSingleQuote inner ∧
    parseMsbuildVersionFunctionCall (trimAscii inner) = none ∧
    parseSystemVersionPartToken (trimAscii inner) = none

/- The evaluation reaches a truth value. -/
def Commits
    (props : Properties)
    (files : Option (List Char → Bool))
    (source : List Char) :
    Prop :=
  (evaluateInner props files source).outcome ≠ .Unsupported

variable {delim : Char → Bool} {c d : Char}
variable {s t u v rest text body inner raw source : List Char} {depth n : Nat}
variable {tokens first : List Token}

/- A scan for the close of the innermost of `depth + 1` open groups and all
   the groups around it. -/
structure Scans
    (delim : Char → Bool)
    (scan : Nat → List Char → Option Nat) :
    Prop where
  nil : ∀ depth, scan depth [] = none
  plain : ∀ depth c rest, delim c = false → c ≠ '(' → c ≠ ')' →
    scan depth (c :: rest) = (scan depth rest).map (· + 1)
  literal : ∀ depth d body t, delim d = true → d ∉ body →
    scan depth (d :: (body ++ d :: t)) =
      (scan depth t).map (· + body.length + 2)
  unclosed : ∀ depth d rest, delim d = true → d ∉ rest →
    scan depth (d :: rest) = none
  opens : ∀ depth rest,
    scan depth ('(' :: rest) = (scan (depth + 1) rest).map (· + 1)
  closesLast : ∀ rest, scan 0 (')' :: rest) = some 0
  closes : ∀ depth rest,
    scan (depth + 1) (')' :: rest) = (scan depth rest).map (· + 1)

namespace Scans

variable {scan : Nat → List Char → Option Nat}

/- A scan passes an interior. -/
theorem interior
    (hScans : Scans delim scan)
    (hInterior : Interior delim t) :
    ∀ depth rest, scan depth (t ++ rest) =
      (scan depth rest).map (· + t.length) := by
  induction hInterior with
  | nil =>
      intro depth rest
      rw [List.nil_append]
      cases scan depth rest with
      | none => rfl
      | some k => rfl
  | @plain c t hDelim hOpen hClose hTail ih =>
      intro depth rest
      rw [List.cons_append, hScans.plain _ _ _ hDelim hOpen hClose, ih,
        Option.map_map]
      rfl
  | @literal d body t hDelim hBody hTail ih =>
      intro depth rest
      rw [List.cons_append, List.append_assoc, List.cons_append,
        hScans.literal _ _ _ _ hDelim hBody, ih, Option.map_map]
      congr 1
      funext k
      simp only [Function.comp_apply, List.length_cons,
        List.length_append]
      omega
  | @group inner t hInner hTail ihInner ih =>
      intro depth rest
      rw [List.cons_append, List.append_assoc, List.cons_append,
        hScans.opens, ihInner, hScans.closes, ih]
      simp only [Option.map_map]
      congr 1
      funext k
      simp only [Function.comp_apply, List.length_cons,
        List.length_append]
      omega

/- What a scan found behind an interior, at the last close or before. -/
def Found
    (scan : Nat → List Char → Option Nat)
    (u v : List Char)
    (depth n : Nat) :
    Prop :=
  match depth with
  | 0 => n = u.length
  | depth + 1 => ∃ m, scan depth v = some m ∧ n = u.length + 1 + m

theorem Found.longer
    {k m : Nat}
    (hFound : Found scan u v depth m)
    (hText : text.length = u.length + k)
    (hn : n = m + k) :
    Found scan text v depth n := by
  cases depth with
  | zero =>
      have hm : m = u.length := hFound
      show n = text.length
      omega
  | succ depth =>
      rcases hFound with ⟨m', hm', hm⟩
      refine ⟨m', hm', ?_⟩
      omega

/- A scan that closes read an interior up to its next close. -/
theorem cases
    (hScans : Scans delim scan)
    (text : List Char) :
    ∀ depth n, scan depth text = some n →
      ∃ u v, text = u ++ ')' :: v ∧ Interior delim u ∧
        Found scan u v depth n := by
  induction hLength : text.length using Nat.strongRecOn
    generalizing text with
  | ind k ih =>
  intro depth n hScan
  cases text with
  | nil =>
      rw [hScans.nil] at hScan
      cases hScan
  | cons c rest =>
      rw [List.length_cons] at hLength
      by_cases hDelim : delim c = true
      · by_cases hMem : c ∈ rest
        · rcases List.eq_append_cons_of_mem hMem with ⟨body, t, rfl, hBody⟩
          rw [hScans.literal _ _ _ _ hDelim hBody] at hScan
          rcases Option.map_eq_some_iff.1 hScan with ⟨m, hm, rfl⟩
          have hShort : t.length < k := by
            rw [List.length_append, List.length_cons] at hLength
            omega
          rcases ih t.length hShort t rfl depth m hm with
            ⟨u, v, rfl, hInterior, hFound⟩
          refine ⟨c :: (body ++ c :: u), v, by simp,
            .literal hDelim hBody hInterior,
            hFound.longer (k := body.length + 2) ?_ (by omega)⟩
          simp only [List.length_cons, List.length_append]
          omega
        · rw [hScans.unclosed _ _ _ hDelim hMem] at hScan
          cases hScan
      · rw [Bool.not_eq_true] at hDelim
        by_cases hOpen : c = '('
        · subst hOpen
          rw [hScans.opens] at hScan
          rcases Option.map_eq_some_iff.1 hScan with ⟨m, hm, rfl⟩
          rcases ih rest.length (by omega) rest rfl (depth + 1) m hm with
            ⟨inner, w, rfl, hInner, m', hm', hn⟩
          have hShort : w.length < k := by
            rw [List.length_append, List.length_cons] at hLength
            omega
          rcases ih w.length hShort w rfl depth m' hm' with
            ⟨u, v, rfl, hInterior, hFound⟩
          refine ⟨'(' :: (inner ++ ')' :: u), v, by simp,
            .group hInner hInterior,
            hFound.longer (k := inner.length + 2) ?_ (by omega)⟩
          simp only [List.length_cons, List.length_append]
          omega
        · by_cases hClose : c = ')'
          · subst hClose
            refine ⟨[], rest, rfl, .nil, ?_⟩
            cases depth with
            | zero =>
                rw [hScans.closesLast] at hScan
                cases hScan
                rfl
            | succ depth =>
                rw [hScans.closes] at hScan
                rcases Option.map_eq_some_iff.1 hScan with ⟨m, hm, rfl⟩
                refine ⟨m, hm, ?_⟩
                rw [List.length_nil]
                omega
          · rw [hScans.plain _ _ _ hDelim hOpen hClose] at hScan
            rcases Option.map_eq_some_iff.1 hScan with ⟨m, hm, rfl⟩
            rcases ih rest.length (by omega) rest rfl depth m hm with
              ⟨u, v, rfl, hInterior, hFound⟩
            exact ⟨c :: u, v, rfl, .plain hDelim hOpen hClose hInterior,
              hFound.longer (k := 1) rfl rfl⟩

/- A scan closes exactly behind an interior. -/
theorem close_iff
    (hScans : Scans delim scan) :
    scan 0 text = some n ↔
      ∃ u v, text = u ++ ')' :: v ∧ Interior delim u ∧ n = u.length := by
  constructor
  · exact hScans.cases text 0 n
  · rintro ⟨u, v, rfl, hInterior, rfl⟩
    rw [hScans.interior hInterior, hScans.closesLast, Option.map_some,
      Nat.zero_add]

end Scans

------------------------------------------------------------
-- The two scanners
------------------------------------------------------------

theorem findIdx_mark_none
    (hNone : d ∉ rest) :
    rest.findIdx? (· == d) = none := by
  rw [List.findIdx?_eq_none_iff]
  intro x hx
  rw [beq_eq_false_iff_ne]
  rintro rfl
  exact hNone hx

theorem findIdx_mark
    (hBefore : d ∉ body) :
    (body ++ d :: t).findIdx? (· == d) = some body.length := by
  rw [List.findIdx?_append, findIdx_mark_none hBefore]
  simp [List.findIdx?_cons]

/- The expression scanner knows three delimiters. -/
theorem scanParen_scans :
    Scans isStringDelim scanParen where
  nil := by
    intro depth
    rw [scanParen.eq_def]
  plain := by
    intro depth c rest hDelim hOpen hClose
    rw [scanParen.eq_def]
    simp [hDelim, hOpen, hClose]
  literal := by
    intro depth d body t hDelim hBody
    have hDrop : (body ++ d :: t).drop (body.length + 1) = t := by
      rw [← List.drop_drop, List.drop_left]
      rfl
    rw [scanParen.eq_def]
    simp only [hDelim, if_true, scanQuote, findIdx_mark hBody, hDrop]
  unclosed := by
    intro depth d rest hDelim hNone
    rw [scanParen.eq_def]
    simp only [hDelim, if_true, scanQuote, findIdx_mark_none hNone]
  opens := by
    intro depth rest
    rw [scanParen.eq_def]
    rfl
  closesLast := by
    intro rest
    rw [scanParen.eq_def]
    rfl
  closes := by
    intro depth rest
    rw [scanParen.eq_def]
    rfl

/- Inside a literal its close is looked for. -/
theorem findBalanced_string
    (hBody : '\'' ∉ body) :
    findBalancedPropertyExpressionClose depth true (body ++ '\'' :: t) =
      (findBalancedPropertyExpressionClose depth false t).map
        (· + body.length + 1) := by
  induction body with
  | nil => rfl
  | cons c body ih =>
      have hNe : c ≠ '\'' := fun h => hBody (h ▸ List.mem_cons_self)
      have hTail : '\'' ∉ body :=
        fun h => hBody (List.mem_cons_of_mem _ h)
      have hStay : (c != '\'') = true := bne_iff_ne.2 hNe
      rw [List.cons_append, findBalancedPropertyExpressionClose.eq_def]
      simp only [if_true, hStay, ih hTail, Option.map_map]
      rfl

theorem findBalanced_unclosed
    (hNone : '\'' ∉ rest) :
    findBalancedPropertyExpressionClose depth true rest = none := by
  induction rest with
  | nil => rfl
  | cons c rest ih =>
      have hNe : c ≠ '\'' := fun h => hNone (h ▸ List.mem_cons_self)
      have hTail : '\'' ∉ rest :=
        fun h => hNone (List.mem_cons_of_mem _ h)
      have hStay : (c != '\'') = true := bne_iff_ne.2 hNe
      rw [findBalancedPropertyExpressionClose.eq_def]
      simp only [if_true, hStay, ih hTail, Option.map_none]

/- The tokeniser's scanner knows one. -/
theorem findBalanced_scans :
    Scans isSingleQuote fun depth text =>
      findBalancedPropertyExpressionClose depth false text where
  nil := fun _ => rfl
  plain := by
    intro depth c rest hDelim hOpen hClose
    have hQuote : c ≠ '\'' := beq_eq_false_iff_ne.1 hDelim
    show findBalancedPropertyExpressionClose depth false (c :: rest) = _
    rw [findBalancedPropertyExpressionClose.eq_def]
    simp [hQuote, hOpen, hClose]
  literal := by
    intro depth d body t hDelim hBody
    have hQuote : d = '\'' := beq_iff_eq.1 hDelim
    subst hQuote
    show (findBalancedPropertyExpressionClose depth true
      (body ++ '\'' :: t)).map (· + 1) = _
    rw [findBalanced_string hBody, Option.map_map]
    rfl
  unclosed := by
    intro depth d rest hDelim hNone
    have hQuote : d = '\'' := beq_iff_eq.1 hDelim
    subst hQuote
    show (findBalancedPropertyExpressionClose depth true rest).map
      (· + 1) = none
    rw [findBalanced_unclosed hNone, Option.map_none]
  opens := fun _ _ => rfl
  closesLast := fun _ => rfl
  closes := fun _ _ => rfl

/- The expression scanner closes behind an interior. -/
theorem findClose_iff :
    findClose text = some n ↔
      ∃ u v, text = u ++ ')' :: v ∧ Interior isStringDelim u ∧
        n = u.length :=
  scanParen_scans.close_iff

theorem complete_iff :
    Complete raw ↔ WellFormedExpression raw := by
  constructor
  · rintro ⟨after, rfl, hNe, hClose⟩
    rcases findClose_iff.1 hClose with ⟨u, v, rfl, hInterior, hLength⟩
    have hNil : v = [] := by
      rw [List.length_append, List.length_cons] at hLength
      apply List.eq_nil_of_length_eq_zero
      omega
    subst hNil
    exact ⟨u, rfl, hInterior⟩
  · rintro ⟨inner, rfl, hInterior⟩
    refine ⟨inner ++ [')'], rfl, by simp, ?_⟩
    rw [findClose_iff]
    exact ⟨inner, [], rfl, hInterior, by simp⟩

/- The tokeniser's scanner closes behind an interior in single quotes. -/
theorem findBalanced_iff :
    findBalancedPropertyExpressionClose 0 false text = some n ↔
      ∃ u v, text = u ++ ')' :: v ∧ Interior isSingleQuote u ∧
        n = u.length :=
  findBalanced_scans.close_iff

/- An expression ends in one place only. -/
theorem expression_unique
    {inner' v' : List Char}
    (hInner : Interior isSingleQuote inner)
    (hInner' : Interior isSingleQuote inner')
    (hSame : expression inner ++ v = expression inner' ++ v') :
    inner = inner' ∧ v = v' := by
  have hText : inner ++ ')' :: v = inner' ++ ')' :: v' := by
    simpa [expression] using hSame
  have hScan := findBalanced_iff.2 ⟨inner, v, hText.symm, hInner, rfl⟩
  rw [findBalanced_iff.2 ⟨inner', v', rfl, hInner', rfl⟩] at hScan
  rcases List.append_inj hText (Option.some.inj hScan).symm with
    ⟨rfl, hRest⟩
  cases hRest
  exact ⟨rfl, rfl⟩

theorem Interior.append
    (hLeft : Interior delim s)
    (hRight : Interior delim t) :
    Interior delim (s ++ t) := by
  induction hLeft with
  | nil => exact hRight
  | plain hDelim hOpen hClose _ ih => exact .plain hDelim hOpen hClose ih
  | literal hDelim hBody _ ih =>
      rw [List.cons_append, List.append_assoc, List.cons_append]
      exact .literal hDelim hBody ih
  | group hInner _ _ ih =>
      rw [List.cons_append, List.append_assoc, List.cons_append]
      exact .group hInner ih

section Trimming

variable (hSpaces : ∀ c, isAsciiWhitespace c = true → delim c = false)

include hSpaces

theorem whitespace_plain
    (hSpace : isAsciiWhitespace c = true) :
    delim c = false ∧ c ≠ '(' ∧ c ≠ ')' := by
  refine ⟨hSpaces c hSpace, ?_, ?_⟩
  · rintro rfl
    exact absurd hSpace (by decide)
  · rintro rfl
    exact absurd hSpace (by decide)

theorem interior_cons_iff
    (hSpace : isAsciiWhitespace c = true) :
    Interior delim (c :: t) ↔ Interior delim t := by
  rcases whitespace_plain hSpaces hSpace with ⟨hDelim, hOpen, hClose⟩
  constructor
  · intro hInterior
    cases hInterior with
    | plain _ _ _ hTail => exact hTail
    | literal hDelim' _ _ =>
        rw [hDelim] at hDelim'
        cases hDelim'
    | group _ _ => exact absurd rfl hOpen
  · exact .plain hDelim hOpen hClose

theorem interior_trimStart_iff :
    Interior delim (trimAsciiStart t) ↔ Interior delim t := by
  unfold trimAsciiStart
  induction t with
  | nil => exact Iff.rfl
  | cons c t ih =>
      cases hSpace : isAsciiWhitespace c with
      | true =>
          rw [List.dropWhile_cons_of_pos hSpace, ih,
            interior_cons_iff hSpaces hSpace]
      | false =>
          rw [List.dropWhile_cons_of_neg (by simp [hSpace])]

/- Whitespace at the end stands outside literals and groups. -/
theorem interior_init
    (hInterior : Interior delim s)
    (hSpace : isAsciiWhitespace c = true) :
    ∀ t, s = t ++ [c] → Interior delim t := by
  rcases whitespace_plain hSpaces hSpace with ⟨hDelim, _, hClose⟩
  induction hInterior with
  | nil =>
      intro t hText
      exact absurd hText.symm (by simp)
  | @plain x t' hPlain hOpen' hClose' hTail ih =>
      intro t hText
      cases t with
      | nil => exact .nil
      | cons y t =>
          rcases List.cons_eq_cons.1 hText with ⟨rfl, hRest⟩
          exact .plain hPlain hOpen' hClose' (ih t hRest)
  | @literal d body t' hDelim' hBody hTail ih =>
      intro t hText
      rcases List.eq_nil_or_concat t' with rfl | ⟨init, last, rfl⟩
      · have hLast := congrArg List.getLast? hText
        rw [← List.cons_append, List.getLast?_concat,
          List.getLast?_concat] at hLast
        cases hLast
        rw [hDelim] at hDelim'
        cases hDelim'
      · rw [List.concat_eq_append] at hText ih
        have hText' : (d :: (body ++ d :: init)) ++ [last] = t ++ [c] := by
          rw [← hText]
          simp
        rcases List.append_inj' hText' rfl with ⟨rfl, hLast⟩
        cases hLast
        exact .literal hDelim' hBody (ih init rfl)
  | @group inner t' hInner hTail ihInner ih =>
      intro t hText
      rcases List.eq_nil_or_concat t' with rfl | ⟨init, last, rfl⟩
      · have hLast := congrArg List.getLast? hText
        rw [← List.cons_append, List.getLast?_concat,
          List.getLast?_concat] at hLast
        cases hLast
        exact absurd rfl hClose
      · rw [List.concat_eq_append] at hText ih
        have hText' : ('(' :: (inner ++ ')' :: init)) ++ [last] =
            t ++ [c] := by
          rw [← hText]
          simp
        rcases List.append_inj' hText' rfl with ⟨rfl, hLast⟩
        cases hLast
        exact .group hInner (ih init rfl)

theorem interior_trimEnd_iff :
    Interior delim (trimAsciiEnd t) ↔ Interior delim t := by
  unfold trimAsciiEnd
  induction t using List.reverseRecOn with
  | nil => exact Iff.rfl
  | append_singleton t c ih =>
      rw [List.reverse_append, List.reverse_singleton,
        List.singleton_append]
      cases hSpace : isAsciiWhitespace c with
      | true =>
          rw [List.dropWhile_cons_of_pos hSpace, ih]
          constructor
          · intro hInterior
            exact hInterior.append
              ((interior_cons_iff hSpaces hSpace).2 .nil)
          · intro hInterior
            exact interior_init hSpaces hInterior hSpace t rfl
      | false =>
          rw [List.dropWhile_cons_of_neg (by simp [hSpace]),
            List.reverse_cons, List.reverse_reverse]

theorem interior_trim_iff :
    Interior delim (trimAscii t) ↔ Interior delim t := by
  unfold trimAscii
  rw [interior_trimEnd_iff hSpaces, interior_trimStart_iff hSpaces]

end Trimming

theorem whitespace_unquoted
    (hSpace : isAsciiWhitespace c = true) :
    isStringDelim c = false ∧ isSingleQuote c = false := by
  rw [isAsciiWhitespace] at hSpace
  simp only [Bool.or_eq_true, beq_iff_eq] at hSpace
  rcases hSpace with (((rfl | rfl) | rfl) | rfl) | rfl <;>
    exact ⟨by decide, by decide⟩

------------------------------------------------------------
-- Tokens
------------------------------------------------------------

/- The token of a bare expression that is not a version call. -/
theorem classify_property_iff :
    classify inner = .Property raw ↔
      classify inner ≠ .Unknown ∧ raw = expression (trimAscii inner) ∧
        parseMsbuildVersionFunctionCall (trimAscii inner) = none ∧
        parseSystemVersionPartToken (trimAscii inner) = none := by
  unfold classify trimAscii
  dsimp only
  generalize trimAsciiEnd (trimAsciiStart inner) = word
  cases parseMsbuildVersionFunctionCall word with
  | some call => simp
  | none =>
      cases parseSystemVersionPartToken word with
      | some part => simp
      | none =>
          simp only [Option.isSome_none, Bool.false_eq_true, if_false,
            and_true]
          split
          · simp [eq_comm]
          · split
            · simp [eq_comm]
            · simp

/- The text of tokens that the grammar knows. -/
inductive TokenText :
    List Char → List Token → Prop
  | plain {taken : List Char} {tokens : List Token} :
      (∀ c ∈ taken, c ≠ '\'' ∧ c ≠ '$') →
      (∀ raw, .Property raw ∉ tokens) → TokenText taken tokens
  | string {body : List Char} :
      '\'' ∉ body →
        TokenText ('\'' :: (body ++ ['\''])) [.String body]
  | operand {inner : List Char} :
      Interior isSingleQuote inner →
        TokenText (expression inner) [classify inner]

theorem take_length_takeWhile
    (p : Char → Bool)
    (text : List Char) :
    text.take (text.takeWhile p).length = text.takeWhile p :=
  (List.prefix_iff_eq_take.1 (List.takeWhile_prefix p)).symm

/- A number has neither quotes nor dollars. -/
theorem numeric_plain
    (hStart : (c.isDigit || c == '.' || c == '+' || c == '-') = true) :
    ∀ x ∈ (c :: rest).take (numericLength c rest), x ≠ '\'' ∧ x ≠ '$' := by
  have hPart : ∀ (x : Char), (x.isDigit || x == '.') = true →
      x ≠ '\'' ∧ x ≠ '$' := by
    intro x hx
    refine ⟨?_, ?_⟩ <;>
      · rintro rfl
        exact absurd hx (by decide)
  have hFirst : c ≠ '\'' ∧ c ≠ '$' := by
    refine ⟨?_, ?_⟩ <;>
      · rintro rfl
        exact absurd hStart (by decide)
  unfold numericLength
  split
  · next hHex =>
      cases rest with
      | nil => simp at hHex
      | cons mark rest =>
          have hMark : mark ≠ '\'' ∧ mark ≠ '$' := by
            rcases hHex.2.1 with hIs | hIs <;>
              · cases Option.some.inj hIs
                decide
          rw [Nat.add_comm, List.drop_one, List.tail_cons,
            List.take_succ_cons, List.take_succ_cons,
            take_length_takeWhile]
          intro x hx
          rcases List.mem_cons.1 hx with rfl | hx
          · exact hFirst
          · rcases List.mem_cons.1 hx with rfl | hx
            · exact hMark
            · have hDigit := List.mem_takeWhile_imp hx
              refine ⟨?_, ?_⟩ <;>
                · rintro rfl
                  exact absurd hDigit (by decide)
  · split
    · rw [Nat.add_comm, List.take_succ_cons, take_length_takeWhile]
      intro x hx
      rcases List.mem_cons.1 hx with rfl | hx
      · exact hFirst
      · exact hPart x (List.mem_takeWhile_imp
          (p := fun c => c.isDigit || c == '.') hx)
    · rw [take_length_takeWhile]
      intro x hx
      exact hPart x (List.mem_takeWhile_imp
        (p := fun c => c.isDigit || c == '.') hx)

/- So has a word. -/
theorem word_plain :
    ∀ x ∈ rest.takeWhile isIdentContinue, x ≠ '\'' ∧ x ≠ '$' := by
  intro x hx
  have hPart := List.mem_takeWhile_imp hx
  refine ⟨?_, ?_⟩ <;>
    · rintro rfl
      exact absurd hPart (by decide)

theorem matchKeyword_ne_property
    (word : List Char) :
    matchKeyword word ≠ .Property raw := by
  unfold matchKeyword
  intro hToken
  repeat' split at hToken
  all_goals cases hToken

/- A turn of the tokeniser takes the text of its tokens, or yields one that
   the grammar does not know. -/
theorem tokenStep_text
    (hStep : tokenStep c rest = some (first, t)) :
    ∃ taken, c :: rest = taken ++ t ∧
      ((.Unknown ∈ first ∧ ∀ raw, .Property raw ∉ first) ∨
        TokenText taken first) := by
  unfold tokenStep at hStep
  split at hStep
  · next hSpace =>
      cases hStep
      refine ⟨[c], rfl, .inr (.plain ?_ (fun _ h => by cases h))⟩
      intro x hx
      rw [List.mem_singleton.1 hx]
      refine ⟨?_, ?_⟩ <;>
        · rintro rfl
          exact absurd hSpace (by decide)
  · split at hStep
    case h_11 =>
      split at hStep
      · cases hStep
        refine ⟨['$'], rfl, .inl ⟨List.mem_singleton_self _, ?_⟩⟩
        simp
      · next after close hScan =>
          cases hStep
          rcases findBalanced_iff.1 hScan with
            ⟨inner, rest, rfl, hInterior, rfl⟩
          refine ⟨expression inner, ?_, .inr ?_⟩
          · rw [← List.drop_drop, List.drop_left]
            simp [expression]
          · rw [List.take_left]
            exact .operand hInterior
    case h_12 =>
      split at hStep
      · next hNumber =>
          cases hStep
          refine ⟨_, (List.take_append_drop _ _).symm,
            .inr (.plain (numeric_plain hNumber) ?_)⟩
          simp
      · split at hStep
        · cases hStep
          refine ⟨(c :: rest).takeWhile isIdentContinue, ?_,
            .inr (.plain word_plain ?_)⟩
          · conv_lhs => rw [← List.take_append_drop
              ((c :: rest).takeWhile isIdentContinue).length (c :: rest)]
            rw [take_length_takeWhile]
          · intro raw hMem
            exact matchKeyword_ne_property _ (List.mem_singleton.1 hMem).symm
        · cases hStep
          refine ⟨[c], rfl, .inl ⟨?_, ?_⟩⟩
          · rw [List.mem_replicate]
            exact ⟨Nat.ne_of_gt c.utf8Size_pos, rfl⟩
          · intro raw hMem
            exact absurd (List.eq_of_mem_replicate hMem) (by simp)
    case h_10 =>
      split at hStep
      · cases hStep
      · next _ close hQuote =>
          cases hStep
          by_cases hMem : '\'' ∈ rest
          · rcases List.eq_append_cons_of_mem hMem with
              ⟨body, t, rfl, hBody⟩
            rw [findIdx_mark hBody] at hQuote
            cases hQuote
            refine ⟨'\'' :: (body ++ ['\'']), ?_, .inr ?_⟩
            · rw [← List.drop_drop, List.drop_left]
              simp
            · rw [List.take_left]
              exact .string hBody
          · rw [findIdx_mark_none hMem] at hQuote
            cases hQuote
    all_goals
      cases hStep
      first
        | refine ⟨[_], rfl, .inr (.plain ?_ ?_)⟩
        | refine ⟨[_, _], rfl, .inr (.plain ?_ ?_)⟩
      · simp
      · simp

theorem Outside.append
    (hLeft : Outside s)
    (hRight : Outside t) :
    Outside (s ++ t) := by
  induction hLeft with
  | nil => exact hRight
  | plain hQuote hDollar _ ih => exact .plain hQuote hDollar ih
  | string hBody _ ih =>
      rw [List.cons_append, List.append_assoc, List.cons_append]
      exact .string hBody ih
  | operand hInner _ ih =>
      rw [List.append_assoc]
      exact .operand hInner ih

theorem Outside.of_plain
    (hPlain : ∀ c ∈ s, c ≠ '\'' ∧ c ≠ '$') :
    Outside s := by
  induction s with
  | nil => exact .nil
  | cons c s ih =>
      have hFirst := hPlain c List.mem_cons_self
      exact .plain hFirst.1 hFirst.2
        (ih fun x hx => hPlain x (List.mem_cons_of_mem _ hx))

theorem TokenText.outside
    (hText : TokenText text tokens) :
    Outside text := by
  cases hText with
  | plain hPlain _ => exact .of_plain hPlain
  | string hBody => exact .string hBody .nil
  | @operand inner hInner =>
      rw [← List.append_nil (expression inner)]
      exact .operand hInner .nil

/- A property token is that of an expression of the text, which stands
   outside literals where the grammar knows every token. -/
theorem expression_of_token
    (fuel : Nat)
    (hTokens : tokeniseLoop fuel text = some tokens)
    (hMem : .Property raw ∈ tokens) :
    ∃ u inner v, text = u ++ expression inner ++ v ∧
      (.Unknown ∉ tokens → Outside u) ∧
      Interior isSingleQuote inner ∧ classify inner = .Property raw := by
  induction fuel generalizing text tokens with
  | zero =>
      cases text with
      | nil =>
          cases hTokens
          cases hMem
      | cons c rest => cases hTokens
  | succ fuel ih =>
      cases text with
      | nil =>
          cases hTokens
          cases hMem
      | cons c rest =>
          rw [tokeniseLoop] at hTokens
          split at hTokens
          · cases hTokens
          · next first rest' hStep =>
            rcases Option.map_eq_some_iff.1 hTokens with
              ⟨later, hLater, rfl⟩
            rcases tokenStep_text hStep with ⟨taken, hTaken, hText⟩
            rcases List.mem_append.1 hMem with hFirst | hLast
            · rcases hText with ⟨-, hNone⟩ | hText
              · exact absurd hFirst (hNone raw)
              · cases hText with
                | plain _ hNone => exact absurd hFirst (hNone raw)
                | string _ => simp at hFirst
                | @operand inner hInner =>
                    exact ⟨[], inner, rest', hTaken, fun _ => .nil, hInner,
                      (List.mem_singleton.1 hFirst).symm⟩
            · rcases ih hLater hLast with
                ⟨u, inner, v, rfl, hOutside, hInner, hClassify⟩
              refine ⟨taken ++ u, inner, v, ?_, ?_, hInner, hClassify⟩
              · rw [hTaken]
                simp
              · intro hKnown
                rw [List.mem_append, not_or] at hKnown
                rcases hText with ⟨hUnknown, -⟩ | hText
                · exact absurd hUnknown hKnown.1
                · exact hText.outside.append (hOutside hKnown.2)

/- A turn of the tokeniser takes the front of what stands before an
   expression, or the expression. -/
theorem TokenText.front
    {taken : List Char}
    (hText : TokenText taken first)
    (hOutside : Outside u)
    (hInner : Interior isSingleQuote inner)
    (hSame : taken ++ t = u ++ expression inner ++ v) :
    first = [classify inner] ∨
      ∃ w, Outside w ∧ t = w ++ expression inner ++ v := by
  cases hText with
  | plain hPlain _ =>
      refine .inr ?_
      induction taken generalizing u with
      | nil => exact ⟨u, hOutside, hSame⟩
      | cons c taken ih =>
          have hFirst := hPlain c List.mem_cons_self
          cases hOutside with
          | nil => exact absurd (List.cons_eq_cons.1 hSame).1 hFirst.2
          | plain _ _ hTail =>
              exact ih hTail (List.cons_eq_cons.1 hSame).2
                fun x hx => hPlain x (List.mem_cons_of_mem _ hx)
          | string _ _ =>
              exact absurd (List.cons_eq_cons.1 hSame).1 hFirst.1
          | operand _ _ =>
              exact absurd (List.cons_eq_cons.1 hSame).1 hFirst.2
  | @string body hBody =>
      refine .inr ?_
      cases hOutside with
      | nil => exact absurd (List.cons_eq_cons.1 hSame).1 (by decide)
      | plain hQuote _ _ =>
          exact absurd (List.cons_eq_cons.1 hSame).1.symm hQuote
      | @string body' w hBody' hTail =>
          have hRest : body ++ '\'' :: t =
              body' ++ '\'' :: (w ++ expression inner ++ v) := by
            simpa using hSame
          have hQuote := findIdx_mark (t := t) hBody
          rw [hRest, findIdx_mark hBody'] at hQuote
          rcases List.append_inj hRest (Option.some.inj hQuote).symm with
            ⟨-, hTails⟩
          exact ⟨w, hTail, (List.cons_eq_cons.1 hTails).2⟩
      | operand _ _ =>
          exact absurd (List.cons_eq_cons.1 hSame).1 (by decide)
  | @operand inner' hInner' =>
      cases hOutside with
      | nil =>
          rw [List.nil_append] at hSame
          rw [(expression_unique hInner' hInner hSame).1]
          exact .inl rfl
      | plain _ hDollar _ =>
          exact absurd (List.cons_eq_cons.1 hSame).1.symm hDollar
      | string _ _ =>
          exact absurd (List.cons_eq_cons.1 hSame).1 (by decide)
      | @operand inner'' w hInner'' hTail =>
          rw [List.append_assoc, List.append_assoc] at hSame
          refine .inr ⟨w, hTail, ?_⟩
          rw [List.append_assoc]
          exact (expression_unique hInner' hInner'' hSame).2

/- Where the grammar knows every token, an expression outside literals has
   its token. -/
theorem token_of_expression
    (fuel : Nat)
    (hTokens : tokeniseLoop fuel text = some tokens)
    (hKnown : .Unknown ∉ tokens)
    (hText : text = u ++ expression inner ++ v)
    (hOutside : Outside u)
    (hInner : Interior isSingleQuote inner) :
    classify inner ∈ tokens := by
  induction fuel generalizing text tokens u with
  | zero =>
      subst hText
      cases u with
      | nil => cases hTokens
      | cons c u => cases hTokens
  | succ fuel ih =>
      cases text with
      | nil => simp [expression] at hText
      | cons c rest =>
          rw [tokeniseLoop] at hTokens
          split at hTokens
          · cases hTokens
          · next first rest' hStep =>
            rcases Option.map_eq_some_iff.1 hTokens with
              ⟨later, hLater, rfl⟩
            rw [List.mem_append, not_or] at hKnown
            rcases tokenStep_text hStep with
              ⟨taken, hTaken, ⟨hUnknown, -⟩ | hTokenText⟩
            · exact absurd hUnknown hKnown.1
            · rcases hTokenText.front hOutside hInner
                (hTaken.symm.trans hText) with rfl | ⟨w, hW, hRest⟩
              · exact List.mem_append_left _ (List.mem_singleton_self _)
              · exact List.mem_append_right _
                  (ih hLater hKnown.2 hRest hW)

/- The grammar knows every token of what it derives. -/
theorem Spells.known
    {level : Level}
    {e : BoolExpr}
    (hSpells : Spells level e tokens) :
    .Unknown ∉ tokens := by
  have hOperand : ∀ {a l}, Operand a l → .Unknown ≠ a := by
    intro a l hIs
    cases hIs <;> exact Token.noConfusion
  have hArgument : ∀ {a l}, Argument a l → .Unknown ≠ a := by
    intro a l hIs
    cases hIs <;> exact Token.noConfusion
  induction hSpells with
  | or _ _ ihl ihr => simp [ihl, ihr]
  | and _ _ ihl ihr => simp [ihl, ihr]
  | ofAnd _ ih => exact ih
  | ofPrimary _ ih => exact ih
  | ofFactor _ _ ih => exact ih
  | compare hA hOp hB =>
      have hNe : ∀ {o op}, Token.compareOp o = some op → .Unknown ≠ o := by
        rintro o op hOp rfl
        cases hOp
      simp [hOperand hA, hOperand hB, hNe hOp]
  | operand hA => simp [hOperand hA]
  | not _ ih => simp [ih]
  | paren _ ih => simp [ih]
  | «exists» hA => simp [hArgument hA]
  | slash hA => simp [hArgument hA]
  | coerce hA _ _ => simp [hOperand hA]
  | yes => simp
  | no => simp
  | version _ => simp

/- Without the other two delimiters both scanners read the same. -/
theorem interior_of_single
    (hInterior : Interior isSingleQuote t)
    (hOnly : ∀ c ∈ t, isStringDelim c = isSingleQuote c) :
    Interior isStringDelim t := by
  induction hInterior with
  | nil => exact .nil
  | @plain c t hDelim hOpen hClose hTail ih =>
      refine .plain ?_ hOpen hClose
        (ih fun x hx => hOnly x (List.mem_cons_of_mem _ hx))
      rw [hOnly c List.mem_cons_self]
      exact hDelim
  | @literal d body t hDelim hBody hTail ih =>
      refine .literal ?_ hBody (ih fun x hx => hOnly x (by simp [hx]))
      rw [hOnly d List.mem_cons_self]
      exact hDelim
  | @group inner t hInner hTail ihInner ih =>
      exact .group (ihInner fun x hx => hOnly x (by simp [hx]))
        (ih fun x hx => hOnly x (by simp [hx]))

theorem complete_of_interior
    (hInterior : Interior isStringDelim inner) :
    Complete (expression (trimAscii inner)) :=
  complete_iff.2 ⟨_, rfl, (interior_trim_iff
    fun _ hSpace => (whitespace_unquoted hSpace).1).2 hInterior⟩

/- A token without double quotes and backticks is one expression. -/
theorem complete_of_single
    (hTokens : tokenise source = some tokens)
    (hMem : .Property raw ∈ tokens)
    (hOnly : ∀ c ∈ raw, c ≠ '"' ∧ c ≠ '\x60') :
    Complete raw := by
  rcases expression_of_token _ hTokens hMem with
    ⟨u, inner, v, -, -, hInterior, hClassify⟩
  rcases classify_property_iff.1 hClassify with ⟨-, rfl, -⟩
  refine complete_iff.2 ⟨_, rfl, interior_of_single ((interior_trim_iff
    fun _ hSpace => (whitespace_unquoted hSpace).2).2 hInterior) ?_⟩
  intro c hc
  have hNe := hOnly c (by simp [expression, hc])
  rw [isStringDelim, isSingleQuote, beq_eq_false_iff_ne.2 hNe.1,
    beq_eq_false_iff_ne.2 hNe.2, Bool.or_false, Bool.or_false]

/- A text of whitespace has no expression. -/
theorem dollar_of_trim
    (hBlank : trim source = []) :
    '$' ∉ source := by
  intro hMem
  have hNil : source.dropWhile NuGet.isWhitespace = [] := by
    by_contra hSome
    unfold trim at hBlank
    rw [List.reverse_eq_nil_iff, List.dropWhile_eq_nil_iff] at hBlank
    have hHead := List.head_dropWhile_not NuGet.isWhitespace hSome
    have hSpace := hBlank _ (List.mem_reverse.2 (List.head_mem hSome))
    rw [hSpace] at hHead
    cases hHead
  rw [List.dropWhile_eq_nil_iff] at hNil
  exact absurd (hNil '$' hMem) (by decide)

/- What the tokeniser makes of a text that the evaluation commits to. -/
theorem Commits.known
    {props : Properties}
    {files : Option (List Char → Bool)}
    (hCommits : Commits props files source) :
    '$' ∉ source ∨
      ∃ tokens, tokenise source = some tokens ∧ .Unknown ∉ tokens := by
  unfold Commits evaluateInner at hCommits
  split at hCommits
  · next hBlank =>
      exact .inl (dollar_of_trim hBlank)
  · split at hCommits
    · exact absurd rfl hCommits
    · split at hCommits
      · exact absurd rfl hCommits
      · next tokens hTokens =>
          split at hCommits
          · exact absurd rfl hCommits
          · exact absurd rfl hCommits
          · next expr hParse =>
              rcases (parser_sound _ tokens [] expr).1 hParse with
                ⟨ts, rfl, hSpells⟩
              rw [List.append_nil] at hTokens
              exact .inr ⟨ts, hTokens, hSpells.known⟩

theorem dollar_of_expression :
    '$' ∈ u ++ expression inner ++ v := by
  simp [expression]

/-
  Where the evaluation commits, the property tokens are complete exactly
  when every operand of the text that is one reads as an expression with
  all three delimiters.  Those in single quotes do.
-/
theorem property_tokens_complete_iff
    (props : Properties)
    (files : Option (List Char → Bool))
    (source : List Char) :
    (Commits props files source →
      ((∀ tokens raw, tokenise source = some tokens →
          .Property raw ∈ tokens → Complete raw) ↔
        ∀ inner, PropertyOperand source inner →
          Interior isStringDelim inner)) ∧
    (∀ tokens raw, tokenise source = some tokens →
      .Property raw ∈ tokens → (∀ c ∈ raw, c ≠ '"' ∧ c ≠ '\x60') →
        Complete raw) := by
  refine ⟨?_, ?_⟩
  · intro hCommits
    rcases hCommits.known with hNone | ⟨tokens, hTokens, hKnown⟩
    · constructor
      · rintro - inner ⟨u, v, rfl, -⟩
        exact absurd dollar_of_expression hNone
      · intro _ tokens raw hTokens hMem
        rcases expression_of_token _ hTokens hMem with
          ⟨u, inner, v, rfl, -⟩
        exact absurd dollar_of_expression hNone
    · constructor
      · rintro hComplete inner ⟨u, v, hText, hOutside, hInner, hCalls⟩
        have hMem := token_of_expression _ hTokens hKnown hText hOutside
          hInner
        have hNe : classify inner ≠ .Unknown := fun hIs =>
          hKnown (hIs ▸ hMem)
        rw [classify_property_iff.2 ⟨hNe, rfl, hCalls⟩] at hMem
        rcases complete_iff.1 (hComplete tokens _ hTokens hMem) with
          ⟨inner', hSame, hInterior⟩
        have hWord : trimAscii inner = inner' := by
          simpa [expression] using hSame
        rw [← hWord] at hInterior
        exact (interior_trim_iff
          fun _ hSpace => (whitespace_unquoted hSpace).1).1 hInterior
      · intro hOperands tokens' raw hTokens' hMem
        rw [hTokens] at hTokens'
        cases hTokens'
        rcases expression_of_token _ hTokens hMem with
          ⟨u, inner, v, hText, hOutside, hInner, hClassify⟩
        rcases classify_property_iff.1 hClassify with ⟨-, rfl, hCalls⟩
        exact complete_of_interior (hOperands inner
          ⟨u, v, hText, hOutside hKnown, hInner, hCalls⟩)
  · intro tokens raw hTokens hMem hOnly
    exact complete_of_single hTokens hMem hOnly

/- A property that is compared with a literal. -/
theorem property_tokens_complete_compare :
    Commits (definesX none) none "$(X) == 'a'".toList ∧
      ∀ inner, PropertyOperand "$(X) == 'a'".toList inner →
        Interior isStringDelim inner := by
  have hCommits : Commits (definesX none) none "$(X) == 'a'".toList := by
    unfold Commits
    decide +kernel
  have hIff := property_tokens_complete_iff (definesX none) none
    "$(X) == 'a'".toList
  have hRead : tokenise "$(X) == 'a'".toList =
      some [.Property "$(X)".toList, .Eq, .String ['a']] := by
    decide
  refine ⟨hCommits, (hIff.1 hCommits).1 ?_⟩
  intro tokens raw hTokens hMem
  refine hIff.2 tokens raw hTokens hMem ?_
  rw [hRead] at hTokens
  cases hTokens
  have hRaw : raw = "$(X)".toList := by
    simpa using hMem
  rw [hRaw]
  simp

/- The skipped arm of an `Or` may hold a token that ends inside a literal
   in double quotes. -/
theorem property_token_splits_literal :
    (∀ props files, Commits props files
      "true Or ($(X.Contains(\")\"))".toList) ∧
    (∃ tokens, tokenise "true Or ($(X.Contains(\")\"))".toList =
      some tokens ∧
        .Property "$(X.Contains(\")\")".toList ∈ tokens) ∧
    ¬ Complete "$(X.Contains(\")\")".toList := by
  have hTokens : tokenise "true Or ($(X.Contains(\")\"))".toList =
      some [.True, .Or, .LParen,
        .Property "$(X.Contains(\")\")".toList, .RParen] := by
    decide
  have hParse : parseOr 30 [.True, .Or, .LParen,
      .Property "$(X.Contains(\")\")".toList, .RParen] =
      .ok (.Or (.CoerceBool (.Bare "true".toList))
        (.CoerceBool (.Property "$(X.Contains(\")\")".toList)), []) := by
    rfl
  refine ⟨?_, ⟨_, hTokens, by simp⟩, ?_⟩
  · intro props files
    have hBlank : trim "true Or ($(X.Contains(\")\"))".toList ≠ [] := by
      decide
    have hMarks : (mentions "@(".toList
        "true Or ($(X.Contains(\")\"))".toList ||
          mentions "%(".toList
            "true Or ($(X.Contains(\")\"))".toList) = false := by
      decide
    have hTrue : parseMsbuildBool "true".toList = some true := by
      decide
    unfold Commits evaluateInner
    rw [if_neg hBlank, hMarks, hTokens]
    simp only [Bool.false_eq_true, if_false, parserFuel, List.length_cons,
      List.length_nil, hParse, evalBool, expandScalarForCondition, hTrue,
      Option.map_some]
    intro hUnsupported
    cases hUnsupported
  · have hNone : findClose "X.Contains(\")\")".toList = none := by
      decide +kernel
    rintro ⟨after, hText, _, hClose⟩
    have hAfter : after = "X.Contains(\")\")".toList := by
      rcases List.cons_eq_cons.1 hText with ⟨_, hText⟩
      exact (List.cons_eq_cons.1 hText).2.symm
    rw [hAfter, hNone] at hClose
    cases hClose

end MSBuild

end Borzoi
