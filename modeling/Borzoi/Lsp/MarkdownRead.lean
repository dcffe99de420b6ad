import Borzoi.Lsp.Markdown

/-
  Reading printed inlines.

  The reader follows the rules of CommonMark for the inlines that are
  printed: escapes, code spans, runs of stars, links and line breaks.
  What opens another structure makes it fail.
-/

namespace Borzoi

namespace Lsp

namespace Markdown

/- The punctuation that a backslash may stand before. -/
def isPunctuation
    (c : Char) :
    Bool :=
  let n := c.toNat
  (0x21 ≤ n && n ≤ 0x2F) || (0x3A ≤ n && n ≤ 0x40) ||
    (0x5B ≤ n && n ≤ 0x60) || (0x7B ≤ n && n ≤ 0x7E)

/- The characters that end a text where they are not escaped. -/
def isStructural
    (c : Char) :
    Bool :=
  c ∈ ['\\', '`', '*', '_', '[', ']', '<', '&', '|', '~', '\n']

/- Text, and what it ends before; an image would start at `![`. -/
def readText :
    List Char → List Char × List Char
  | '\\' :: c :: rest =>
      if isPunctuation c then (c :: (readText rest).1, (readText rest).2)
      else ([], '\\' :: c :: rest)
  | '!' :: '[' :: rest => ([], '!' :: '[' :: rest)
  | c :: rest =>
      if isStructural c then ([], c :: rest)
      else (c :: (readText rest).1, (readText rest).2)
  | [] => ([], [])

/- A destination, behind its `<`. -/
def readUrl :
    List Char → Option (List Char × List Char)
  | '\\' :: c :: rest =>
      if isPunctuation c then
        (readUrl rest).map fun read => (c :: read.1, read.2)
      else
        none
  | '>' :: rest => some ([], rest)
  | c :: rest =>
      if c ∈ ['<', '\\', '\n'] then none
      else (readUrl rest).map fun read => (c :: read.1, read.2)
  | [] => none

/- The code before the next run of `n` backticks, behind a run. -/
def closeCode
    (n : Nat) :
    Nat → List Char → Option (List Char × List Char)
  | run, [] => if run = n then some ([], []) else none
  | run, c :: rest =>
      if c = '`' then
        closeCode n (run + 1) rest
      else if run = n then
        some ([], c :: rest)
      else
        (closeCode n 0 rest).map fun read =>
          (backticks run ++ c :: read.1, read.2)

def stripPadding
    (code : List Char) :
    List Char :=
  if code.head? = some ' ' ∧ code.getLast? = some ' ' ∧
      ¬ code.all isSpace = true then
    (code.drop 1).dropLast
  else
    code

def runLength
    (sign : Char)
    (s : List Char) :
    Nat :=
  (s.takeWhile (· == sign)).length

def readCode
    (s : List Char) :
    Option (Inline × List Char) :=
  let n := runLength '`' s
  (closeCode n 0 (s.drop n)).map fun read =>
    (.Code (stripPadding read.1), read.2)

/- Text between two runs of stars of one length. -/
def readEmphasis
    (s : List Char) :
    Option (Inline × List Char) :=
  let n := runLength '*' s
  let (t, rest) := readText (s.drop n)
  if runLength '*' rest ≠ n then none
  else if n = 1 then some (.Emphasis t, rest.drop 1)
  else if n = 2 then some (.Strong t, rest.drop 2)
  else none

/- A link whose destination was read. -/
def closeLink
    (label : List Char) :
    Option (List Char × List Char) → Option (Inline × List Char)
  | some (url, ')' :: rest) => some (.Link label url, rest)
  | _ => none

def readDestination
    (label : List Char) :
    List Char → Option (Inline × List Char)
  | ']' :: '(' :: '<' :: destination => closeLink label (readUrl destination)
  | _ => none

/- A link, behind its `[`. -/
def readLink
    (s : List Char) :
    Option (Inline × List Char) :=
  readDestination (readText s).1 (readText s).2

def readInline
    (indent s : List Char) :
    Option (Inline × List Char) :=
  match s with
  | '\\' :: '\n' :: rest =>
      if indent.isPrefixOf rest then
        some (.LineBreak, rest.drop indent.length)
      else
        none
  | '`' :: _ => readCode s
  | '*' :: _ => readEmphasis s
  | '[' :: rest => readLink rest
  | _ =>
      let (t, rest) := readText s
      if t.isEmpty then none else some (.Text t, rest)

/- Every inline that is read takes characters. -/
def readInlines
    (indent s : List Char) :
    Option (List Inline) :=
  if s.isEmpty then
    some []
  else
    match readInline indent s with
    | none => none
    | some (inline, rest) =>
        if rest.length < s.length then
          (readInlines indent rest).map fun inlines => inline :: inlines
        else
          none
termination_by s.length

/- Characters with a backslash before those at some places. -/
def escapeBy
    (f : Char → Nat → Bool)
    (k : Nat)
    (text : List Char) :
    List Char :=
  (text.zipIdx k).flatMap fun (c, i) => if f c i then ['\\', c] else [c]

/- Enough is escaped, and nothing that a backslash cannot escape. -/
structure Escapes
    (f : Char → Nat → Bool) :
    Prop where
  punctuation : ∀ c i, f c i = true → isPunctuation c = true
  structural : ∀ c i, isStructural c = true → c ≠ '\n' → f c i = true

theorem isEscaped_escapes
    (text : List Char)
    (atLineStart beforeLink : Bool) :
    Escapes (isEscaped text atLineStart beforeLink) where
  punctuation := by
    intro c i hEscaped
    have hAll : ∀ d ∈ ['\\', '`', '*', '_', '[', ']', '<', '&', '|', '~'] ++
        ['#', '>', '+', '-', '='] ++ ['.', ')'] ++ ['!'],
        isPunctuation d = true :=
      List.all_eq_true.1 (by decide)
    apply hAll
    unfold isEscaped at hEscaped
    split at hEscaped
    · next hMem =>
        exact List.mem_append_left _
          (List.mem_append_left _ (List.mem_append_left _ hMem))
    · split at hEscaped
      · next hMem =>
          exact List.mem_append_left _
            (List.mem_append_left _ (List.mem_append_right _ hMem))
      · split at hEscaped
        · next hMem =>
            exact List.mem_append_left _ (List.mem_append_right _ hMem)
        · split at hEscaped
          · next hBang =>
              rw [hBang]
              exact List.mem_append_right _ List.mem_cons_self
          · cases hEscaped
  structural := by
    intro c i hStructural hLine
    have hMem : c ∈ ['\\', '`', '*', '_', '[', ']', '<', '&', '|', '~'] ++
        ['\n'] :=
      of_decide_eq_true hStructural
    rcases List.mem_append.1 hMem with hHere | hBreak
    · exact if_pos hHere
    · exact absurd (List.mem_singleton.1 hBreak) hLine

theorem escapeBy_cons
    (f : Char → Nat → Bool)
    (k : Nat)
    (c : Char)
    (text : List Char) :
    escapeBy f k (c :: text) =
      (if f c k then ['\\', c] else [c]) ++ escapeBy f (k + 1) text := by
  unfold escapeBy
  rw [List.zipIdx_cons, List.flatMap_cons]

variable {c : Char} {f : Char → Nat → Bool} {code rest s : List Char}
variable {n run : Nat}

/- A text starts with an escape, or with a character of no meaning. -/
theorem escapeBy_head
    (hEscapes : Escapes f)
    (k : Nat)
    (hLine : c ≠ '\n')
    (text : List Char) :
    ∃ d rest, escapeBy f k (c :: text) = d :: rest ∧
      (d = '\\' ∧ (∃ others, rest = c :: others) ∧ f c k = true ∨
        d = c ∧ isStructural d = false ∧ f c k = false) := by
  rw [escapeBy_cons]
  by_cases hEscaped : f c k = true
  · rw [if_pos hEscaped]
    exact ⟨'\\', _, rfl, Or.inl ⟨rfl, ⟨_, rfl⟩, hEscaped⟩⟩
  · rw [if_neg hEscaped]
    refine ⟨c, _, rfl, Or.inr ⟨rfl, ?_, Bool.eq_false_iff.2 hEscaped⟩⟩
    rw [Bool.eq_false_iff]
    exact fun hStructural =>
      hEscaped (hEscapes.structural c k hStructural hLine)

/- A text ends where a structure starts. -/
def Stops
    (rest : List Char) :
    Prop :=
  readText rest = ([], rest)

theorem stops_nil :
    Stops [] :=
  rfl

theorem stops_sign
    (hSign : c ∈ ['`', '*', '[', ']'])
    (rest : List Char) :
    Stops (c :: rest) := by
  rcases List.mem_cons.1 hSign with rfl | hSign
  · rfl
  · rcases List.mem_cons.1 hSign with rfl | hSign
    · rfl
    · rcases List.mem_cons.1 hSign with rfl | hSign
      · rfl
      · rw [List.mem_singleton.1 hSign]
        rfl

theorem stops_lineBreak
    (rest : List Char) :
    Stops ('\\' :: '\n' :: rest) :=
  rfl

theorem readText_plain
    (hPlain : isStructural c = false)
    (hBang : c = '!' → s.head? ≠ some '[') :
    readText (c :: s) = (c :: (readText s).1, (readText s).2) := by
  have hNotStructural : ¬ isStructural c = true := Bool.eq_false_iff.1 hPlain
  conv_lhs => unfold readText
  split
  · next d rest hSame =>
      rw [(List.cons.inj hSame).1] at hPlain
      cases hPlain
  · next rest hSame =>
      rcases List.cons.inj hSame with ⟨hChar, hRest⟩
      rw [hRest] at hBang
      exact absurd rfl (hBang hChar)
  · next d rest _ _ hSame =>
      rcases List.cons.inj hSame with ⟨rfl, rfl⟩
      rw [if_neg hNotStructural]
  · next hNil => cases hNil

theorem readText_escaped
    (hPunctuation : isPunctuation c = true)
    (s : List Char) :
    readText ('\\' :: c :: s) = (c :: (readText s).1, (readText s).2) :=
  if_pos hPunctuation

/- An escaped text is read back, up to what follows. -/
theorem readText_escapeBy
    (hEscapes : Escapes f)
    {text rest : List Char}
    {k : Nat}
    (hLines : ∀ c ∈ text, c ≠ '\n')
    (hStop : Stops rest)
    (hBang : rest.head? = some '[' → text.getLast? = some '!' →
      f '!' (k + text.length - 1) = true) :
    readText (escapeBy f k text ++ rest) = (text, rest) := by
  induction text generalizing k with
  | nil => exact hStop
  | cons c more ih =>
      rcases List.forall_mem_cons.1 hLines with ⟨hLine, hMore⟩
      have hRead : readText (escapeBy f (k + 1) more ++ rest) =
          (more, rest) := by
        apply ih hMore
        intro hLink hLast
        cases more with
        | nil => cases hLast
        | cons d others =>
            have hSame : k + 1 + (d :: others).length - 1 =
                k + (c :: d :: others).length - 1 := by
              rw [List.length_cons, List.length_cons, List.length_cons]
              omega
            rw [hSame]
            apply hBang hLink
            rw [List.getLast?_cons_cons]
            exact hLast
      rw [escapeBy_cons, List.append_assoc]
      by_cases hEscaped : f c k = true
      · rw [if_pos hEscaped]
        change readText ('\\' :: c :: (escapeBy f (k + 1) more ++ rest)) = _
        rw [readText_escaped (hEscapes.punctuation c k hEscaped), hRead]
      · have hPlain : isStructural c = false := by
          rw [Bool.eq_false_iff]
          exact fun hStructural =>
            hEscaped (hEscapes.structural c k hStructural hLine)
        rw [if_neg hEscaped]
        change readText (c :: (escapeBy f (k + 1) more ++ rest)) = _
        rw [readText_plain hPlain, hRead]
        -- an exclamation mark with a bracket behind it is escaped
        rintro rfl hBracket
        cases more with
        | nil => exact hEscaped (hBang hBracket rfl)
        | cons d others =>
            have hNext := hMore d List.mem_cons_self
            rcases escapeBy_head hEscapes (k + 1) hNext others with
              ⟨e, tail, hHead, hFirst | hFirst⟩
            · rw [hHead, hFirst.1] at hBracket
              cases hBracket
            · rw [hHead] at hBracket
              have hStructural := hFirst.2.1
              rw [Option.some.inj hBracket] at hStructural
              cases hStructural

------------------------------------------------------------
-- Runs Of Backticks
------------------------------------------------------------

/- The longest run, of those that start in the text or go on in it. -/
def maxRun :
    Nat → List Char → Nat
  | run, [] => run
  | run, c :: rest =>
      if c = '`' then maxRun (run + 1) rest else max run (maxRun 0 rest)

theorem le_maxRun
    (run : Nat)
    (s : List Char) :
    run ≤ maxRun run s := by
  induction s generalizing run with
  | nil => exact Nat.le_refl run
  | cons c rest ih =>
      unfold maxRun
      split
      · exact Nat.le_of_succ_le (ih (run + 1))
      · exact Nat.le_max_left _ _

theorem maxRun_zero_le
    (run : Nat)
    (s : List Char) :
    maxRun 0 s ≤ maxRun run s := by
  have hMono : ∀ (s : List Char) (a b : Nat), a ≤ b →
      maxRun a s ≤ maxRun b s := by
    intro s
    induction s with
    | nil => exact fun _ _ hLe => hLe
    | cons c rest ih =>
        intro a b hLe
        unfold maxRun
        split
        · exact ih _ _ (Nat.succ_le_succ hLe)
        · omega
  exact hMono s 0 run (Nat.zero_le run)

theorem maxRun_append
    (run : Nat)
    (a b : List Char) :
    maxRun 0 b ≤ maxRun run (a ++ b) := by
  induction a generalizing run with
  | nil => exact maxRun_zero_le run b
  | cons c rest ih =>
      rw [List.cons_append, maxRun]
      split
      · exact ih (run + 1)
      · exact Nat.le_trans (ih 0) (Nat.le_max_right _ _)

theorem maxRun_append_left
    (run : Nat)
    (a b : List Char) :
    maxRun run a ≤ maxRun run (a ++ b) := by
  induction a generalizing run with
  | nil => exact le_maxRun run b
  | cons c rest ih =>
      rw [List.cons_append, maxRun, maxRun]
      split
      · exact ih (run + 1)
      · have hRest := ih 0
        omega

theorem maxRun_infix
    {part s : List Char}
    (hPart : part <:+: s) :
    maxRun 0 part ≤ maxRun 0 s := by
  rcases hPart with ⟨before, after, rfl⟩
  rw [List.append_assoc]
  exact Nat.le_trans (maxRun_append_left 0 part after)
    (maxRun_append 0 before (part ++ after))

theorem maxRun_spaces
    {spaces : List Char}
    (hSpaces : ∀ c ∈ spaces, c = ' ')
    (s : List Char) :
    maxRun 0 (spaces ++ s) = maxRun 0 s := by
  induction spaces with
  | nil => rfl
  | cons c rest ih =>
      rcases List.forall_mem_cons.1 hSpaces with ⟨rfl, hRest⟩
      rw [List.cons_append, maxRun, if_neg (by decide), ih hRest]
      exact Nat.zero_max _

theorem maxRun_backticks
    (run n : Nat)
    (rest : List Char) :
    run + n ≤ maxRun run (backticks n ++ rest) := by
  induction n generalizing run with
  | zero => exact le_maxRun run rest
  | succ n ih =>
      have hStep := ih (run + 1)
      unfold backticks at hStep ⊢
      rw [List.replicate_succ, List.cons_append, maxRun, if_pos rfl]
      omega

/- A run inside a text is no longer than the longest. -/
theorem run_le_maxRun
    (hRun : backticks n <:+: s) :
    n ≤ maxRun 0 s := by
  have hInside := maxRun_infix hRun
  have hHere := maxRun_backticks 0 n []
  rw [List.append_nil] at hHere
  omega

/- The runs are the parts between the other characters. -/
theorem maxRun_le
    (s : List Char) :
    maxRun 0 s ≤ longestBacktickRun s := by
  have hRuns : ∀ (s : List Char) (run bound : Nat) (first : List Char)
      (parts : List (List Char)),
      (s.splitOnP fun c => c != '`') = first :: parts →
      run + first.length ≤ bound → (∀ part ∈ parts, part.length ≤ bound) →
      maxRun run s ≤ bound := by
    intro s
    induction s with
    | nil =>
        intro run bound first parts hSplit hFirst _
        exact Nat.le_trans (Nat.le_add_right run first.length) hFirst
    | cons c rest ih =>
        intro run bound first parts hSplit hFirst hParts
        rw [List.splitOnP_cons_eq_if_modifyHead] at hSplit
        cases hRest : rest.splitOnP fun c => c != '`' with
        | nil => exact absurd hRest (List.splitOnP_ne_nil _ rest)
        | cons next others =>
            rw [hRest] at hSplit
            unfold maxRun
            by_cases hTick : c = '`'
            · rw [if_neg (by rw [hTick]; decide),
                List.modifyHead_cons] at hSplit
              rcases List.cons.inj hSplit with ⟨rfl, rfl⟩
              rw [if_pos hTick]
              rw [List.length_cons] at hFirst
              exact ih (run + 1) bound next others hRest (by omega) hParts
            · rw [if_pos (bne_iff_ne.2 hTick)] at hSplit
              rcases List.cons.inj hSplit with ⟨rfl, rfl⟩
              rcases List.forall_mem_cons.1 hParts with ⟨hNext, hOthers⟩
              rw [if_neg hTick]
              apply max_le
              · exact hFirst
              · exact ih 0 bound next others hRest (by omega) hOthers
  have hPart : ∀ part ∈ s.splitOnP fun c => c != '`',
      part.length ≤ longestBacktickRun s := by
    intro part hMem
    exact List.le_max?_getD_of_mem (List.mem_map.2 ⟨part, hMem, rfl⟩)
  cases hSplit : s.splitOnP fun c => c != '`' with
  | nil => exact absurd hSplit (List.splitOnP_ne_nil _ s)
  | cons first parts =>
      rw [hSplit] at hPart
      rcases List.forall_mem_cons.1 hPart with ⟨hFirst, hParts⟩
      exact hRuns s 0 _ first parts hSplit (by omega) hParts

theorem closeCode_fence
    (hRun : run ≤ n)
    (hRest : rest.head? ≠ some '`') :
    closeCode n run (backticks (n - run) ++ rest) = some ([], rest) := by
  generalize hLeft : n - run = left
  induction left generalizing run with
  | zero =>
      have hSame : run = n := by omega
      unfold backticks
      rw [List.replicate_zero, List.nil_append]
      cases rest with
      | nil => exact if_pos hSame
      | cons c others =>
          have hOther : ¬ c = '`' := by
            rintro rfl
            exact hRest rfl
          rw [closeCode, if_neg hOther, if_pos hSame]
  | succ left ih =>
      have hStep : closeCode n (run + 1) (backticks left ++ rest) =
          some ([], rest) :=
        ih (by omega) (by omega)
      unfold backticks at hStep ⊢
      rw [List.replicate_succ, List.cons_append, closeCode, if_pos rfl]
      exact hStep

/- Code whose runs are shorter than the fence is read up to it. -/
theorem closeCode_body
    {body rest : List Char}
    (hRuns : maxRun run body < n)
    (hFirst : body = [] → run = 0)
    (hLast : ∀ c ∈ body.getLast?, c ≠ '`')
    (hRest : rest.head? ≠ some '`') :
    closeCode n run (body ++ (backticks n ++ rest)) =
      some (backticks run ++ body, rest) := by
  induction body generalizing run with
  | nil =>
      rw [hFirst rfl]
      exact closeCode_fence (Nat.zero_le n) hRest
  | cons c more ih =>
      have hTail : ∀ d ∈ more.getLast?, d ≠ '`' := by
        intro d hMem
        apply hLast
        cases more with
        | nil => cases hMem
        | cons e others =>
            rw [List.getLast?_cons_cons]
            exact hMem
      rw [List.cons_append, closeCode]
      unfold maxRun at hRuns
      by_cases hTick : c = '`'
      · rw [if_pos hTick] at hRuns
        have hMore : more = [] → run + 1 = 0 := by
          rintro rfl
          exact absurd hTick (hLast c rfl)
        rw [if_pos hTick, ih hRuns hMore hTail, hTick]
        unfold backticks
        rw [List.replicate_succ', List.append_assoc]
        rfl
      · rw [if_neg hTick] at hRuns
        have hShort : ¬ run = n := by
          have hLe := Nat.le_max_left run (maxRun 0 more)
          omega
        have hMore : maxRun 0 more < n :=
          Nat.lt_of_le_of_lt (Nat.le_max_right _ _) hRuns
        rw [if_neg hTick, if_neg hShort, ih hMore (fun _ => rfl) hTail]
        rfl

theorem runLength_replicate
    {sign : Char}
    (n : Nat)
    (hRest : rest.head? ≠ some sign) :
    runLength sign (List.replicate n sign ++ rest) = n := by
  unfold runLength
  have hNone : rest.takeWhile (· == sign) = [] := by
    cases rest with
    | nil => rfl
    | cons c others =>
        rw [List.takeWhile_cons_of_neg]
        intro hSame
        apply hRest
        rw [beq_iff_eq.1 hSame]
        rfl
  rw [List.takeWhile_append_of_pos, hNone, List.append_nil,
    List.length_replicate]
  intro c hMem
  rw [List.eq_of_mem_replicate hMem]
  exact beq_self_eq_true sign

/- One space is stripped where it was padded, and nowhere else. -/
theorem stripPadding_padded
    (hShown : ¬ code.all isSpace = true) :
    stripPadding (padding code ++ code ++ padding code) = code := by
  cases code with
  | nil => exact absurd rfl hShown
  | cons c rest =>
      unfold padding
      split
      · have hCode : [' '] ++ (c :: rest) ++ [' '] =
            ' ' :: ((c :: rest) ++ [' ']) := rfl
        rw [hCode]
        unfold stripPadding
        rw [if_pos]
        · rw [List.drop_succ_cons, List.drop_zero, List.dropLast_concat]
        · refine ⟨rfl, ?_, ?_⟩
          · rw [← List.cons_append, List.getLast?_concat]
          · intro hAll
            apply hShown
            rw [List.all_cons, List.all_append, Bool.and_eq_true,
              Bool.and_eq_true] at hAll
            exact hAll.2.1
      · next hEdge =>
          rw [List.nil_append, List.append_nil]
          unfold stripPadding
          rw [if_neg]
          rintro ⟨hFirst, -⟩
          apply hEdge
          rw [hFirst]
          rfl

/- The edges of padded code are no backticks. -/
theorem padded_edges
    (code : List Char) :
    (padding code ++ code ++ padding code).head? ≠ some '`' ∧
      (padding code ++ code ++ padding code).getLast? ≠ some '`' := by
  unfold padding
  split
  · refine ⟨?_, ?_⟩
    · intro hTick
      cases hTick
    · rw [List.getLast?_concat]
      intro hTick
      cases hTick
  · next hEdge =>
      rw [List.nil_append, List.append_nil]
      rw [Bool.or_eq_true, not_or] at hEdge
      refine ⟨?_, ?_⟩
      · intro hTick
        apply hEdge.1
        rw [hTick]
        rfl
      · intro hTick
        apply hEdge.2
        rw [hTick]
        rfl

theorem maxRun_padded
    (code : List Char) :
    maxRun 0 (padding code ++ code ++ padding code) = maxRun 0 code := by
  have hSpace : ∀ (s : List Char) (run : Nat),
      maxRun run (s ++ [' ']) = maxRun run s := by
    intro s
    induction s with
    | nil =>
        intro run
        exact Nat.max_zero run
    | cons c rest ih =>
        intro run
        rw [List.cons_append, maxRun, maxRun, ih, ih]
  have hFirst : ∀ s, maxRun 0 (' ' :: s) = maxRun 0 s := by
    intro s
    exact Nat.zero_max _
  unfold padding
  split
  · rw [hSpace]
    exact hFirst code
  · rw [List.nil_append, List.append_nil]

theorem readCode_print
    (hShown : ¬ code.all isSpace = true)
    (hRest : rest.head? ≠ some '`') :
    readCode (backticks (longestBacktickRun code + 1) ++ padding code ++ code ++
      padding code ++ backticks (longestBacktickRun code + 1) ++ rest) =
      some (.Code code, rest) := by
  have hNonempty : code ≠ [] := by
    rintro rfl
    exact hShown rfl
  rcases padded_edges code with ⟨hFirst, hLast⟩
  have hRuns : maxRun 0 (padding code ++ code ++ padding code) <
      longestBacktickRun code + 1 := by
    rw [maxRun_padded]
    exact Nat.lt_succ_of_le (maxRun_le code)
  have hStrip := stripPadding_padded hShown
  generalize hN : longestBacktickRun code + 1 = n
  rw [hN] at hRuns
  have hText : backticks n ++ padding code ++ code ++ padding code ++
      backticks n ++ rest =
      backticks n ++ ((padding code ++ code ++ padding code) ++
        (backticks n ++ rest)) := by
    simp only [List.append_assoc]
  rw [hText]
  have hSome : padding code ++ code ++ padding code ≠ [] := by
    intro hNil
    rw [List.append_eq_nil_iff, List.append_eq_nil_iff] at hNil
    exact hNonempty hNil.1.2
  generalize padding code ++ code ++ padding code = body
    at hFirst hLast hRuns hStrip hSome
  have hBodyFirst : (body ++ (backticks n ++ rest)).head? ≠ some '`' := by
    rw [List.head?_append_of_ne_nil _ hSome]
    exact hFirst
  have hLength : runLength '`' (backticks n ++ (body ++
      (backticks n ++ rest))) = n :=
    runLength_replicate n hBodyFirst
  have hClose : closeCode n 0 (body ++ (backticks n ++ rest)) =
      some (backticks 0 ++ body, rest) := by
    apply closeCode_body hRuns (fun _ => rfl) _ hRest
    rintro c hMem rfl
    exact hLast hMem
  have hBody : (backticks n ++ (body ++ (backticks n ++ rest))).drop n =
      body ++ (backticks n ++ rest) :=
    List.drop_left' List.length_replicate
  unfold readCode
  rw [hLength]
  dsimp only
  rw [hBody, hClose, Option.map_some]
  change some (Inline.Code (stripPadding body), rest) = _
  rw [hStrip]

theorem readUrl_escapeUrl
    {url : List Char}
    (hLines : ∀ c ∈ url, c ≠ '\n')
    (rest : List Char) :
    readUrl (escapeUrl url ++ '>' :: rest) = some (url, rest) := by
  induction url with
  | nil => rfl
  | cons c more ih =>
      rcases List.forall_mem_cons.1 hLines with ⟨hLine, hMore⟩
      have hRead := ih hMore
      unfold escapeUrl at hRead ⊢
      rw [List.flatMap_cons, List.append_assoc]
      generalize (more.flatMap fun c =>
        if c ∈ ['<', '>', '\\', '&'] then ['\\', c] else [c]) ++
          '>' :: rest = tail at hRead
      by_cases hEscaped : c ∈ ['<', '>', '\\', '&']
      · have hPunctuation : ∀ d ∈ ['<', '>', '\\', '&'],
            isPunctuation d = true :=
          List.all_eq_true.1 (by decide)
        rw [if_pos hEscaped]
        change readUrl ('\\' :: c :: tail) = _
        rw [readUrl, if_pos (hPunctuation c hEscaped), hRead]
        rfl
      · have hSpecial : c ∉ ['<', '\\', '\n'] := by
          intro hMem
          rcases List.mem_cons.1 hMem with hLess | hMem
          · rw [hLess] at hEscaped
            exact hEscaped (by decide)
          · rcases List.mem_cons.1 hMem with hSlash | hMem
            · rw [hSlash] at hEscaped
              exact hEscaped (by decide)
            · exact hLine (List.mem_singleton.1 hMem)
        rw [if_neg hEscaped]
        change readUrl (c :: tail) = _
        conv_lhs => unfold readUrl
        split
        · next d others hSame =>
            rw [(List.cons.inj hSame).1] at hEscaped
            exact absurd (by decide) hEscaped
        · next others hSame =>
            rw [(List.cons.inj hSame).1] at hEscaped
            exact absurd (by decide) hEscaped
        · next d others _ _ hSame =>
            rcases List.cons.inj hSame with ⟨rfl, rfl⟩
            rw [if_neg hSpecial, hRead]
            rfl
        · next hNil => cases hNil

end Markdown

end Lsp

end Borzoi
