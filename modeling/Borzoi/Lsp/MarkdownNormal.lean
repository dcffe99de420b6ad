import Borzoi.Lsp.Markdown
import Mathlib.Data.Bool.AllAny

/-
  The normal form of inlines.

  White space is collapsed, edge spaces stand outside of emphasis, no two
  neighbours are of one kind, and no line starts or ends with a space.
  Normal inlines stay as they are, and nothing that shows is lost.
-/

namespace Borzoi

namespace Lsp

namespace Markdown

open NuGet (isWhitespace trim isAsciiDigit)
open Program (Merging)
open Text

/- What a reader sees of a character. -/
def visibleChar
    (c : Char) :
    List Char :=
  if isBreakingSpace c then [] else [if c = nul then replacement else c]

def visible
    (text : List Char) :
    List Char :=
  text.flatMap visibleChar

theorem visible_append
    (a b : List Char) :
    visible (a ++ b) = visible a ++ visible b :=
  List.flatMap_append

variable {c : Char} {f : Char → Char} {atom inline : Inline}
variable {make : List Char → Inline} {atoms : List Inline}

theorem visibleChar_space
    (hSpace : isSpace c = true) :
    visibleChar c = [] := by
  have hSame : c = ' ' := beq_iff_eq.1 hSpace
  rw [hSame]
  rfl

theorem visibleChar_breaking
    (hBreaking : isBreakingSpace c = true) :
    visibleChar c = [] :=
  if_pos hBreaking

theorem visibleChar_replaced
    (c : Char) :
    visibleChar (if c = nul then replacement else c) = visibleChar c := by
  split
  · next hNul =>
      rw [hNul]
      decide
  · rfl

/- A text with other characters that show the same. -/
theorem visible_map
    (hSame : ∀ c, visibleChar (f c) = visibleChar c)
    (text : List Char) :
    visible (text.map f) = visible text := by
  unfold visible
  rw [List.flatMap_map]
  congr 1
  funext c
  exact hSame c

theorem visible_replaceNul
    (text : List Char) :
    visible (replaceNul text) = visible text :=
  visible_map visibleChar_replaced text

theorem visible_replaceCrLf
    {ending : Char}
    (hBreaking : isBreakingSpace ending = true)
    (text : List Char) :
    visible (replaceCrLf ending text) = visible text := by
  unfold visible
  fun_induction replaceCrLf ending text with
  | case1 rest ih =>
      rw [List.flatMap_cons, List.flatMap_cons, List.flatMap_cons, ih,
        visibleChar_breaking hBreaking]
      rfl
  | case2 c rest _ ih => rw [List.flatMap_cons, List.flatMap_cons, ih]
  | case3 => rfl

theorem visible_collapse
    (text : List Char) :
    visible (collapse text) = visible text := by
  unfold visible collapse
  fun_induction collapseFrom false text with
  | case1 => rfl
  | case2 c rest hSpace ih =>
      rw [List.flatMap_cons, ih, visibleChar_breaking hSpace]
      rfl
  | case3 inSpace c rest hSpace hFirst ih =>
      rw [List.flatMap_cons, List.flatMap_cons, ih,
        visibleChar_breaking hSpace]
      rfl
  | case4 inSpace c rest hOther ih =>
      rw [List.flatMap_cons, List.flatMap_cons, ih, visibleChar_replaced]

theorem visible_trimBoth
    (text : List Char) :
    visible (trimBoth isSpace text) = visible text :=
  flatMap_trimBoth fun _ => visibleChar_space

/- No white space but single spaces, and no NUL. -/
structure Collapsed
    (text : List Char) :
    Prop where
  plain : ∀ c ∈ text, c ≠ nul ∧ (isBreakingSpace c = true → c = ' ')
  single : text.IsChain fun a b => ¬ (a = ' ' ∧ b = ' ')

theorem Collapsed.nil :
    Collapsed [] :=
  ⟨List.forall_mem_nil _, List.isChain_nil⟩

theorem Collapsed.space :
    Collapsed [' '] :=
  ⟨List.all_iff_forall_prop.1 (by decide), List.isChain_singleton ' '⟩

theorem Collapsed.part
    {text part : List Char}
    (hText : Collapsed text)
    (hPart : part <:+: text) :
    Collapsed part where
  plain := fun c hMem => hText.plain c (hPart.mem hMem)
  single := hText.single.infix hPart

theorem Collapsed.append
    {a b : List Char}
    (hA : Collapsed a)
    (hB : Collapsed b)
    (hSeam : ¬ (a.getLast? = some ' ' ∧ b.head? = some ' ')) :
    Collapsed (a ++ b) where
  plain := by
    intro c hMem
    rcases List.mem_append.1 hMem with hLeft | hRight
    · exact hA.plain c hLeft
    · exact hB.plain c hRight
  single := by
    apply hA.single.append hB.single
    rintro x hLast y hFirst ⟨rfl, rfl⟩
    exact hSeam ⟨hLast, hFirst⟩

theorem Collapsed.seamed
    {a b : List Char}
    (hA : Collapsed a)
    (hB : Collapsed b) :
    Collapsed (a ++ seamed a b) := by
  unfold Markdown.seamed
  split
  · next hBoth =>
      cases b with
      | nil => exact absurd hBoth.2 (Option.some_ne_none ' ').symm
      | cons c rest =>
          have hSpace : c = ' ' := Option.some.inj hBoth.2
          apply hA.append (hB.part (List.suffix_cons c rest).isInfix)
          rintro ⟨-, hNext⟩
          -- a second space behind the first
          exact (List.isChain_cons.1 hB.single).1 ' ' hNext ⟨hSpace, rfl⟩
  · next hSeam => exact hA.append hB hSeam

theorem collapseFrom_collapsed
    (inSpace : Bool)
    (text : List Char) :
    Collapsed (collapseFrom inSpace text) ∧
      (inSpace = true → (collapseFrom inSpace text).head? ≠ some ' ') := by
  fun_induction collapseFrom inSpace text with
  | case1 =>
      refine ⟨Collapsed.nil, ?_⟩
      intro _ hNone
      cases hNone
  | case2 c rest hSpace ih => exact ih
  | case3 inSpace c rest hSpace hFirst ih =>
      rcases ih with ⟨hRest, hHead⟩
      refine ⟨?_, fun hTrue => absurd hTrue hFirst⟩
      apply Collapsed.space.append hRest
      rintro ⟨-, hNext⟩
      exact hHead rfl hNext
  | case4 inSpace c rest hOther ih =>
      have hPlain : ∀ d, d = (if c = nul then replacement else c) →
          d ≠ nul ∧ isBreakingSpace d = false := by
        rintro d rfl
        split
        · decide
        · next hNotNul => exact ⟨hNotNul, Bool.eq_false_iff.2 hOther⟩
      generalize (if c = nul then replacement else c) = d at hPlain
      rcases hPlain d rfl with ⟨hNotNul, hNotBreaking⟩
      have hNotSpace : d ≠ ' ' := by
        rintro rfl
        cases hNotBreaking
      constructor
      · apply Collapsed.append (a := [d]) _ ih.1
        · rintro ⟨hSame, -⟩
          exact hNotSpace (Option.some.inj hSame)
        · refine ⟨?_, List.isChain_singleton d⟩
          intro e hMem
          rw [List.mem_singleton.1 hMem]
          refine ⟨hNotNul, ?_⟩
          intro hBreaking
          rw [hNotBreaking] at hBreaking
          cases hBreaking
      · intro _ hSame
        exact hNotSpace (Option.some.inj hSame)

theorem collapse_collapsed
    (text : List Char) :
    Collapsed (collapse text) :=
  (collapseFrom_collapsed false text).1

theorem Collapsed.collapse_eq
    {text : List Char}
    (hText : Collapsed text) :
    collapse text = text := by
  have hRun : ∀ (text : List Char) (inSpace : Bool), Collapsed text →
      (inSpace = true → text.head? ≠ some ' ') →
      collapseFrom inSpace text = text := by
    intro text
    induction text with
    | nil => exact fun _ _ _ => rfl
    | cons c rest ih =>
        intro inSpace hText hHead
        have hRest := hText.part (List.suffix_cons c rest).isInfix
        rcases hText.plain c List.mem_cons_self with ⟨hNotNul, hSpace⟩
        unfold collapseFrom
        by_cases hBreaking : isBreakingSpace c = true
        · have hSame := hSpace hBreaking
          have hFirst : ¬ inSpace = true := by
            intro hTrue
            apply hHead hTrue
            rw [hSame]
            rfl
          rw [if_pos hBreaking, if_neg hFirst, ih true hRest, hSame]
          intro _ hNext
          exact (List.isChain_cons.1 hText.single).1 ' ' hNext ⟨hSame, rfl⟩
        · rw [if_neg hBreaking, if_neg hNotNul, ih false hRest]
          intro hFalse
          cases hFalse
  apply hRun text false hText
  intro hFalse
  cases hFalse

/- Text in words, as emphasis and links hold it. -/
structure Phrase
    (text : List Char) :
    Prop where
  collapsed : Collapsed text
  nonempty : text ≠ []
  trimmed : Trimmed isSpace text

/- Code without line endings, and not of spaces alone. -/
structure CodeText
    (code : List Char) :
    Prop where
  plain : ∀ c ∈ code, c ≠ nul ∧ c ≠ '\r' ∧ c ≠ '\n'
  shown : trimBoth isSpace code ≠ []

/- What the first step makes of the inlines. -/
def Inline.Tidy :
    Inline → Prop
  | .Text t => Collapsed t
  | .Code c => CodeText c
  | .Strong t => Phrase t
  | .Emphasis t => Phrase t
  | .Link text url => Phrase text ∧ isPrintableUrl url = true
  | .LineBreak => True

def Inline.text :
    Inline → List Char
  | .Text t => t
  | .Code t => t
  | .Strong t => t
  | .Emphasis t => t
  | .Link text _ => text
  | .LineBreak => [' ']

/- What a reader sees of inlines. -/
def shown
    (inlines : List Inline) :
    List Char :=
  inlines.flatMap fun i => visible i.text

theorem shown_append
    (a b : List Inline) :
    shown (a ++ b) = shown a ++ shown b :=
  List.flatMap_append

theorem shown_cons
    (i : Inline)
    (rest : List Inline) :
    shown (i :: rest) = visible i.text ++ shown rest :=
  List.flatMap_cons

theorem Phrase.of_collapsed
    {text : List Char}
    (hText : Collapsed text)
    (hSome : trimBoth isSpace text ≠ []) :
    Phrase (trimBoth isSpace text) where
  collapsed := hText.part (trimBoth_within isSpace text)
  nonempty := hSome
  trimmed := trimBoth_trimmed isSpace text

theorem leading_tidy
    (text : List Char) :
    ∀ i ∈ leading text, i.Tidy := by
  intro i hMem
  unfold leading at hMem
  split at hMem
  · rw [List.mem_singleton.1 hMem]
    exact Collapsed.space
  · cases hMem

theorem trailing_tidy
    (text : List Char) :
    ∀ i ∈ trailing text, i.Tidy := by
  intro i hMem
  unfold trailing at hMem
  split at hMem
  · rw [List.mem_singleton.1 hMem]
    exact Collapsed.space
  · cases hMem

/- An inline between the spaces of its edges. -/
theorem around_tidy
    {text : List Char}
    (hInline : inline.Tidy) :
    ∀ i ∈ leading text ++ inline :: trailing text, i.Tidy := by
  intro i hMem
  rcases List.mem_append.1 hMem with hLeading | hRest
  · exact leading_tidy text i hLeading
  · rcases List.mem_cons.1 hRest with hHere | hTrailing
    · rw [hHere]
      exact hInline
    · exact trailing_tidy text i hTrailing

theorem hoisted_tidy
    (hMake : ∀ t, Phrase t → (make t).Tidy)
    (content : List Char) :
    ∀ i ∈ hoisted content make, i.Tidy := by
  intro i hMem
  have hCollapsed := collapse_collapsed content
  unfold hoisted at hMem
  dsimp only at hMem
  split at hMem
  · rw [List.mem_singleton.1 hMem]
    exact hCollapsed
  · next hSome =>
      apply around_tidy _ i hMem
      apply hMake
      apply Phrase.of_collapsed hCollapsed
      intro hNone
      apply hSome
      rw [hNone]
      rfl

/- A destination that is printed serves as the words of its link. -/
theorem url_phrase
    {url : List Char}
    (hUrl : isPrintableUrl url = true) :
    Phrase url := by
  unfold isPrintableUrl at hUrl
  rw [Bool.and_eq_true, Bool.not_eq_true', Bool.not_eq_true'] at hUrl
  rcases hUrl with ⟨hNonempty, hChars⟩
  rw [List.any_eq_false] at hChars
  have hNotNul : ∀ c ∈ url, c ≠ nul := by
    rintro c hMem rfl
    exact hChars nul hMem (by decide)
  have hNotBreaking : ∀ c ∈ url, isBreakingSpace c = false := by
    intro c hMem
    rw [Bool.eq_false_iff]
    intro hBreaking
    have hAll : ∀ d ∈ [' ', '\t', '\n', '\r', Char.ofNat 0x0B,
        Char.ofNat 0x0C], (isWhitespace d || isControl d) = true :=
      List.all_eq_true.1 (by decide)
    exact hChars c hMem (hAll c (of_decide_eq_true hBreaking))
  have hNotSpace : ∀ c ∈ url, isSpace c = false := by
    intro c hMem
    rw [Bool.eq_false_iff]
    intro hSpace
    have hNot := hNotBreaking c hMem
    rw [beq_iff_eq.1 hSpace] at hNot
    cases hNot
  refine ⟨⟨?_, ?_⟩, ?_, ?_, ?_⟩
  · intro c hMem
    refine ⟨hNotNul c hMem, ?_⟩
    intro hBreaking
    rw [hNotBreaking c hMem] at hBreaking
    cases hBreaking
  · rw [List.isChain_iff_getElem]
    rintro i hLt ⟨hSame, -⟩
    have hNot := hNotSpace _ (List.getElem_mem (Nat.lt_of_succ_lt hLt))
    rw [hSame] at hNot
    cases hNot
  · rintro rfl
    cases hNonempty
  · exact fun c hHead => hNotSpace c (List.mem_of_mem_head? hHead)
  · exact fun c hLast => hNotSpace c (List.mem_of_getLast? hLast)

theorem codeChars_plain
    (code : List Char) :
    ∀ c ∈ codeChars code, c ≠ nul ∧ c ≠ '\r' ∧ c ≠ '\n' := by
  intro c hMem
  unfold codeChars replaceNul at hMem
  dsimp only at hMem
  rcases List.mem_map.1 hMem with ⟨d, hD, rfl⟩
  rcases List.mem_map.1 hD with ⟨e, -, rfl⟩
  by_cases hEnding : e = '\r' ∨ e = '\n'
  · rw [if_pos hEnding]
    decide
  · rw [if_neg hEnding]
    split
    · decide
    · next hNotNul =>
        exact ⟨hNotNul, not_or.1 hEnding⟩

theorem atomsOf_tidy
    (inline : Inline) :
    ∀ i ∈ atomsOf inline, i.Tidy := by
  intro i hMem
  cases inline with
  | Text t =>
      rw [List.mem_singleton.1 hMem]
      exact collapse_collapsed t
  | LineBreak =>
      rw [List.mem_singleton.1 hMem]
      trivial
  | Strong c =>
      have hMake : ∀ t, Phrase t → (Inline.Strong t).Tidy :=
        fun _ hPhrase => hPhrase
      exact hoisted_tidy hMake c i hMem
  | Emphasis c =>
      have hMake : ∀ t, Phrase t → (Inline.Emphasis t).Tidy :=
        fun _ hPhrase => hPhrase
      exact hoisted_tidy hMake c i hMem
  | Code c =>
      unfold atomsOf at hMem
      dsimp only at hMem
      split at hMem
      · rw [List.mem_singleton.1 hMem]
        exact collapse_collapsed _
      · next hSome =>
          rw [List.mem_singleton.1 hMem]
          refine ⟨codeChars_plain c, ?_⟩
          intro hNone
          apply hSome
          rw [hNone]
          rfl
  | Link text url =>
      have hText := collapse_collapsed text
      unfold atomsOf at hMem
      dsimp only at hMem
      split at hMem
      · rw [List.mem_singleton.1 hMem]
        exact collapse_collapsed _
      · next hPrintable =>
          rw [Bool.not_eq_true', Bool.not_eq_false] at hPrintable
          split at hMem
          · rcases List.mem_cons.1 hMem with hFirst | hRest
            · rw [hFirst]
              exact hText
            · rcases List.mem_cons.1 hRest with hLink | hLast
              · rw [hLink]
                exact ⟨url_phrase hPrintable, hPrintable⟩
              · rw [List.mem_singleton.1 hLast]
                exact hText
          · next hSome =>
              apply around_tidy _ i hMem
              refine ⟨Phrase.of_collapsed hText ?_, hPrintable⟩
              intro hNone
              apply hSome
              rw [hNone]
              rfl

theorem shown_leading
    (text : List Char) :
    shown (leading text) = [] := by
  unfold leading
  split
  · rfl
  · rfl

theorem shown_trailing
    (text : List Char) :
    shown (trailing text) = [] := by
  unfold trailing
  split
  · rfl
  · rfl

theorem shown_hoisted
    (hMake : ∀ t, (make t).text = t)
    (content : List Char) :
    shown (hoisted content make) = visible content := by
  unfold hoisted
  dsimp only
  split
  · exact (List.append_nil _).trans (visible_collapse content)
  · rw [shown_append, shown_cons, shown_leading, shown_trailing, hMake,
      List.nil_append, List.append_nil, visible_trimBoth, visible_collapse]

theorem visible_codeChars
    (code : List Char) :
    visible (codeChars code) = visible code := by
  unfold codeChars
  dsimp only
  rw [visible_replaceNul, visible_map, visible_replaceCrLf (by decide)]
  intro c
  split
  · next hEnding =>
      rcases hEnding with rfl | rfl
      · rfl
      · rfl
  · rfl

theorem shown_atomsOf
    (hNoLink : isLink inline = false) :
    shown (atomsOf inline) = visible inline.text := by
  cases inline with
  | Text t => exact (List.append_nil _).trans (visible_collapse t)
  | LineBreak => rfl
  | Strong c => exact shown_hoisted (fun _ => rfl) c
  | Emphasis c => exact shown_hoisted (fun _ => rfl) c
  | Code c =>
      unfold atomsOf
      dsimp only
      split
      · exact (List.append_nil _).trans
          ((visible_collapse _).trans (visible_codeChars c))
      · exact (List.append_nil _).trans (visible_codeChars c)
  | Link text url => cases hNoLink

def isText :
    Inline → Bool
  | .Text _ => true
  | _ => false

def isCode :
    Inline → Bool
  | .Code _ => true
  | _ => false

/- Text without characters is dropped where inlines merge. -/
def Inline.Filled :
    Inline → Prop
  | .Text t => t ≠ []
  | _ => True

theorem dropped_iff
    (i : Inline) :
    adjacent.dropped i = false ↔ i.Filled := by
  cases i with
  | Text t => exact List.isEmpty_eq_false_iff
  | Code _ => exact iff_of_true rfl trivial
  | Strong _ => exact iff_of_true rfl trivial
  | Emphasis _ => exact iff_of_true rfl trivial
  | Link _ _ => exact iff_of_true rfl trivial
  | LineBreak => exact iff_of_true rfl trivial

/- The neighbours that merge, and what they become. -/
theorem join_cases
    {a b joined : Inline}
    (hJoin : adjacent.join a b = some joined) :
    (∃ last t, a = .Text last ∧ b = .Text t ∧
      joined = .Text (last ++ seamed last t)) ∨
    ∃ last c, a = .Code last ∧ b = .Code c ∧ joined = .Code (last ++ c) := by
  unfold adjacent at hJoin
  dsimp only at hJoin
  split at hJoin
  · next last t =>
      exact Or.inl ⟨last, t, rfl, rfl, (Option.some.inj hJoin).symm⟩
  · next last c =>
      exact Or.inr ⟨last, c, rfl, rfl, (Option.some.inj hJoin).symm⟩
  · cases hJoin

theorem join_none_iff
    (a b : Inline) :
    adjacent.join a b = none ↔
      ¬ (isText a = true ∧ isText b = true) ∧
        ¬ (isCode a = true ∧ isCode b = true) := by
  unfold adjacent
  dsimp only
  split
  · exact iff_of_false (Option.some_ne_none _)
      fun hApart => hApart.1 ⟨rfl, rfl⟩
  · exact iff_of_false (Option.some_ne_none _)
      fun hApart => hApart.2 ⟨rfl, rfl⟩
  · next hText hCode =>
      refine iff_of_true rfl ⟨?_, ?_⟩
      · rintro ⟨hA, hB⟩
        cases a with
        | Text last =>
            cases b with
            | Text t => exact hText last t rfl rfl
            | _ => cases hB
        | _ => cases hA
      · rintro ⟨hA, hB⟩
        cases a with
        | Code last =>
            cases b with
            | Code c => exact hCode last c rfl rfl
            | _ => cases hB
        | _ => cases hA

/- What merges stays of its kind. -/
theorem join_kind
    {a b joined : Inline}
    (hJoin : adjacent.join a b = some joined) :
    (isText joined = isText a ∧ isCode joined = isCode a ∧
      isEmphasis joined = false) ∧ isEmphasis a = false ∧
      isEmphasis b = false ∧ isLink joined = false := by
  rcases join_cases hJoin with
    ⟨last, t, rfl, rfl, rfl⟩ | ⟨last, c, rfl, rfl, rfl⟩
  · exact ⟨⟨rfl, rfl, rfl⟩, rfl, rfl, rfl⟩
  · exact ⟨⟨rfl, rfl, rfl⟩, rfl, rfl, rfl⟩

theorem CodeText.append
    {a b : List Char}
    (hA : CodeText a)
    (hB : CodeText b) :
    CodeText (a ++ b) where
  plain := by
    intro c hMem
    rcases List.mem_append.1 hMem with hLeft | hRight
    · exact hA.plain c hLeft
    · exact hB.plain c hRight
  shown := by
    intro hNone
    apply hA.shown
    unfold trimBoth at hNone ⊢
    rw [List.rdropWhile_eq_nil_iff] at hNone ⊢
    rw [List.dropWhile_append] at hNone
    split at hNone
    · next hEmpty =>
        rw [List.isEmpty_iff.1 hEmpty]
        exact List.forall_mem_nil _
    · exact fun c hMem => hNone c (List.mem_append_left b hMem)

theorem mergeAdjacent_tidy
    (hAtoms : ∀ a ∈ atoms, a.Tidy) :
    ∀ a ∈ mergeAdjacent atoms, a.Tidy ∧ a.Filled := by
  apply Merging.merge_all
  · intro a b joined hJoin hA hB
    rcases join_cases hJoin with
      ⟨last, t, rfl, rfl, rfl⟩ | ⟨last, c, rfl, rfl, rfl⟩
    · exact ⟨hA.1.seamed hB.1, List.append_ne_nil_of_left_ne_nil hA.2 _⟩
    · exact ⟨CodeText.append hA.1 hB.1, trivial⟩
  · intro a hMem hKept
    exact ⟨hAtoms a hMem, (dropped_iff a).1 hKept⟩

theorem visible_seamed
    (last t : List Char) :
    visible (seamed last t) = visible t := by
  unfold seamed
  split
  · next hBoth =>
      cases t with
      | nil => rfl
      | cons c rest =>
          rw [Option.some.inj hBoth.2]
          rfl
  · rfl

theorem shown_mergeAdjacent
    (atoms : List Inline) :
    shown (mergeAdjacent atoms) = shown atoms := by
  apply Merging.merge_flatMap
  · intro a hDrop
    cases a with
    | Text t =>
        rw [List.isEmpty_iff.1 hDrop]
        rfl
    | _ => cases hDrop
  · intro a b joined hJoin
    rcases join_cases hJoin with
      ⟨last, t, rfl, rfl, rfl⟩ | ⟨last, c, rfl, rfl, rfl⟩
    · exact (visible_append _ _).trans
        (congrArg (visible last ++ ·) (visible_seamed last t))
    · exact visible_append _ _

theorem mergeAdjacent_apart
    (atoms : List Inline) :
    (mergeAdjacent atoms).IsChain fun a b => adjacent.join a b = none := by
  apply Merging.merge_apart
  intro a b c joined hApart hJoin
  rcases (join_kind hJoin).1 with ⟨hText, hCode, -⟩
  rw [join_none_iff, hText, hCode, ← join_none_iff]
  exact hApart

/- Merging brings no emphasis together. -/
theorem mergeAdjacent_emphasis
    (hFilled : ∀ a ∈ atoms, a.Filled)
    (hAtoms : atoms.IsChain fun a b =>
      ¬ (isEmphasis a = true ∧ isEmphasis b = true)) :
    (mergeAdjacent atoms).IsChain fun a b =>
      ¬ (isEmphasis a = true ∧ isEmphasis b = true) := by
  apply Merging.merge_chain
  · rintro a b c joined hJoin - ⟨-, hEmphasis⟩
    rw [(join_kind hJoin).1.2.2] at hEmphasis
    cases hEmphasis
  · rintro a b c joined hJoin - ⟨hEmphasis, -⟩
    rw [(join_kind hJoin).1.2.2] at hEmphasis
    cases hEmphasis
  · exact fun a hMem => (dropped_iff a).2 (hFilled a hMem)
  · exact hAtoms

------------------------------------------------------------
-- Emphasis
------------------------------------------------------------

section Emphasis

variable {isAlphanumeric : Char → Bool}

/- Emphasis has a spelling. -/
def Inline.Spellable
    (isAlphanumeric : Char → Bool) :
    Inline → Prop
  | .Strong t => emphasisSpellable isAlphanumeric t = true
  | .Emphasis t => emphasisSpellable isAlphanumeric t = true
  | _ => True

/- An inline with its neighbours stays an emphasis. -/
def Stays
    (isAlphanumeric : Char → Bool)
    (before after : Option Inline)
    (atom : Inline) :
    Prop :=
  atom.Spellable isAlphanumeric ∧ before.any isEmphasis = false ∧
    after.any isEmphasis = false

/- An inline stays, or is an emphasis that becomes text. -/
theorem demoted_cases
    (before after : Option Inline)
    (atom : Inline) :
    (demoted isAlphanumeric before after atom = atom ∧
      (isEmphasis atom = true → Stays isAlphanumeric before after atom)) ∨
    (isEmphasis atom = true ∧
      demoted isAlphanumeric before after atom = .Text atom.text ∧
      ¬ Stays isAlphanumeric before after atom) := by
  have hTest : ∀ t,
      (emphasisSpellable isAlphanumeric t &&
        !(before.any isEmphasis || after.any isEmphasis)) = true ↔
      emphasisSpellable isAlphanumeric t = true ∧
        before.any isEmphasis = false ∧ after.any isEmphasis = false := by
    intro t
    rw [Bool.and_eq_true, Bool.not_eq_true', Bool.or_eq_false_iff]
  have hOther : ∀ {P : Prop}, false = true → P :=
    fun hFalse => absurd hFalse Bool.false_ne_true
  cases atom with
  | Strong t =>
      by_cases hStays : (emphasisSpellable isAlphanumeric t &&
          !(before.any isEmphasis || after.any isEmphasis)) = true
      · exact Or.inl ⟨if_pos hStays, fun _ => (hTest t).1 hStays⟩
      · exact Or.inr ⟨rfl, if_neg hStays, mt (hTest t).2 hStays⟩
  | Emphasis t =>
      by_cases hStays : (emphasisSpellable isAlphanumeric t &&
          !(before.any isEmphasis || after.any isEmphasis)) = true
      · exact Or.inl ⟨if_pos hStays, fun _ => (hTest t).1 hStays⟩
      · exact Or.inr ⟨rfl, if_neg hStays, mt (hTest t).2 hStays⟩
  | Text t => exact Or.inl ⟨rfl, hOther⟩
  | Code t => exact Or.inl ⟨rfl, hOther⟩
  | Link t url => exact Or.inl ⟨rfl, hOther⟩
  | LineBreak => exact Or.inl ⟨rfl, hOther⟩

/- What is emphasis still had been emphasis, apart from others. -/
theorem demoted_emphasis
    {before after : Option Inline}
    (hEmphasis :
      isEmphasis (demoted isAlphanumeric before after atom) = true) :
    isEmphasis atom = true ∧ Stays isAlphanumeric before after atom := by
  rcases demoted_cases before after atom with
    ⟨hSame, hStays⟩ | ⟨-, hText, -⟩
  · rw [hSame] at hEmphasis
    exact ⟨hEmphasis, hStays hEmphasis⟩
  · rw [hText] at hEmphasis
    cases hEmphasis

theorem Inline.Spellable.of_other
    (hOther : isEmphasis atom = false) :
    atom.Spellable isAlphanumeric := by
  cases atom with
  | Strong t => cases hOther
  | Emphasis t => cases hOther
  | _ => trivial

/- The words of an emphasis are a text. -/
theorem Inline.Tidy.demoted_text
    (hTidy : atom.Tidy)
    (hEmphasis : isEmphasis atom = true) :
    (Inline.Text atom.text).Tidy ∧ (Inline.Text atom.text).Filled := by
  cases atom with
  | Strong t => exact ⟨hTidy.collapsed, hTidy.nonempty⟩
  | Emphasis t => exact ⟨hTidy.collapsed, hTidy.nonempty⟩
  | _ => cases hEmphasis

variable {before : Option Inline}

theorem demotedFrom_tidy
    (hAtoms : ∀ a ∈ atoms, a.Tidy ∧ a.Filled) :
    ∀ a ∈ demotedFrom isAlphanumeric before atoms,
      (a.Tidy ∧ a.Filled) ∧ a.Spellable isAlphanumeric := by
  induction atoms generalizing before with
  | nil => exact List.forall_mem_nil _
  | cons atom rest ih =>
      rcases List.forall_mem_cons.1 hAtoms with ⟨hAtom, hRest⟩
      apply List.forall_mem_cons.2 ⟨_, ih hRest⟩
      rcases demoted_cases before rest.head? atom with
        ⟨hSame, hStays⟩ | ⟨hEmphasis, hText, -⟩
      · rw [hSame]
        refine ⟨hAtom, ?_⟩
        cases hKind : isEmphasis atom with
        | true => exact (hStays hKind).1
        | false => exact Inline.Spellable.of_other hKind
      · rw [hText]
        exact ⟨hAtom.1.demoted_text hEmphasis, trivial⟩

theorem shown_demotedFrom
    (before : Option Inline)
    (atoms : List Inline) :
    shown (demotedFrom isAlphanumeric before atoms) = shown atoms := by
  induction atoms generalizing before with
  | nil => rfl
  | cons atom rest ih =>
      unfold demotedFrom
      rw [shown_cons, shown_cons, ih]
      congr 1
      rcases demoted_cases before rest.head? atom with
        ⟨hSame, -⟩ | ⟨-, hText, -⟩
      · rw [hSame]
      · rw [hText]
        rfl

/- No two neighbours are left emphasis. -/
theorem demotedFrom_emphasis
    (before : Option Inline)
    (atoms : List Inline) :
    (demotedFrom isAlphanumeric before atoms).IsChain fun a b =>
      ¬ (isEmphasis a = true ∧ isEmphasis b = true) := by
  induction atoms generalizing before with
  | nil => exact List.isChain_nil
  | cons atom rest ih =>
      apply (ih (some atom)).cons
      rintro next hNext ⟨hHere, hThere⟩
      rcases demoted_emphasis hHere with ⟨-, -, -, hAfter⟩
      cases rest with
      | nil => cases hNext
      | cons other others =>
          cases hNext
          have hOther := (demoted_emphasis hThere).1
          rw [List.head?_cons, Option.any_some, hOther] at hAfter
          cases hAfter

theorem any_emphasis
    {neighbour : Option Inline}
    (hOther : ∀ a ∈ neighbour, ¬ isEmphasis a = true) :
    neighbour.any isEmphasis = false := by
  cases neighbour with
  | none => rfl
  | some a => exact Bool.eq_false_iff.2 (hOther a rfl)

/- What merges is no emphasis. -/
theorem mergeAdjacent_spellable
    (hAtoms : ∀ a ∈ atoms, a.Spellable isAlphanumeric) :
    ∀ a ∈ mergeAdjacent atoms, a.Spellable isAlphanumeric := by
  apply Merging.merge_all
  · intro a b joined hJoin _ _
    exact Inline.Spellable.of_other (join_kind hJoin).1.2.2
  · exact fun a hMem _ => hAtoms a hMem

/- Emphasis with a spelling, apart from others, stays. -/
theorem demotedFrom_self
    (hAtoms : ∀ a ∈ atoms, a.Spellable isAlphanumeric)
    (hApart : atoms.IsChain fun a b =>
      ¬ (isEmphasis a = true ∧ isEmphasis b = true))
    (hBefore : ∀ a ∈ before, ∀ b ∈ atoms.head?,
      ¬ (isEmphasis a = true ∧ isEmphasis b = true)) :
    demotedFrom isAlphanumeric before atoms = atoms := by
  induction atoms generalizing before with
  | nil => rfl
  | cons atom rest ih =>
      rcases List.forall_mem_cons.1 hAtoms with ⟨hAtom, hRest⟩
      rcases List.isChain_cons.1 hApart with ⟨hNext, hTail⟩
      unfold demotedFrom
      have hSeam : ∀ a ∈ some atom, ∀ b ∈ rest.head?,
          ¬ (isEmphasis a = true ∧ isEmphasis b = true) := by
        intro a hSame
        rw [← Option.some.inj hSame]
        exact hNext
      rw [ih hRest hTail hSeam]
      congr 1
      rcases demoted_cases before rest.head? atom with
        ⟨hSame, -⟩ | ⟨hEmphasis, -, hNot⟩
      · exact hSame
      · exfalso
        apply hNot
        refine ⟨hAtom, ?_, ?_⟩
        · apply any_emphasis
          intro a hA hOther
          exact hBefore a hA atom rfl ⟨hOther, hEmphasis⟩
        · apply any_emphasis
          intro b hB hOther
          exact hNext b hB ⟨hEmphasis, hOther⟩

end Emphasis

/- No two neighbours are texts, codes or emphasis. -/
structure Distinct
    (a b : Inline) :
    Prop where
  texts : ¬ (isText a = true ∧ isText b = true)
  codes : ¬ (isCode a = true ∧ isCode b = true)
  emphases : ¬ (isEmphasis a = true ∧ isEmphasis b = true)

def Inline.StartsLine :
    Inline → Prop
  | .Text t => t.head? ≠ some ' '
  | .LineBreak => False
  | _ => True

def Inline.EndsLine :
    Inline → Prop
  | .Text t => t.getLast? ≠ some ' '
  | .LineBreak => False
  | _ => True

/- Neighbours, of which one may be a line break. -/
structure Apart
    (a b : Inline) :
    Prop where
  distinct : Distinct a b
  start : a = .LineBreak → b.StartsLine
  stop : b = .LineBreak → a.EndsLine

section NormalForm

variable {isAlphanumeric : Char → Bool}

structure Inline.Normal
    (isAlphanumeric : Char → Bool)
    (i : Inline) :
    Prop where
  tidy : i.Tidy
  filled : i.Filled
  spellable : i.Spellable isAlphanumeric

structure Normal
    (isAlphanumeric : Char → Bool)
    (inlines : List Inline) :
    Prop where
  each : ∀ i ∈ inlines, i.Normal isAlphanumeric
  apart : inlines.IsChain Apart
  first : ∀ i ∈ inlines.head?, i.StartsLine
  last : ∀ i ∈ inlines.getLast?, i.EndsLine

theorem Distinct.lineBreak_left
    (b : Inline) :
    Distinct .LineBreak b where
  texts := fun hBoth => absurd hBoth.1 Bool.false_ne_true
  codes := fun hBoth => absurd hBoth.1 Bool.false_ne_true
  emphases := fun hBoth => absurd hBoth.1 Bool.false_ne_true

theorem Distinct.lineBreak_right
    (a : Inline) :
    Distinct a .LineBreak where
  texts := fun hBoth => absurd hBoth.2 Bool.false_ne_true
  codes := fun hBoth => absurd hBoth.2 Bool.false_ne_true
  emphases := fun hBoth => absurd hBoth.2 Bool.false_ne_true

/- A text whose characters change stays distinct. -/
theorem Distinct.text
    {t u : List Char}
    {next : Inline}
    (hDistinct : Distinct (.Text t) next) :
    Distinct (.Text u) next :=
  ⟨hDistinct.texts, hDistinct.codes, hDistinct.emphases⟩

/- The output so far, in reverse; its last line is open. -/
structure Lined
    (isAlphanumeric : Char → Bool)
    (out : List Inline) :
    Prop where
  each : ∀ i ∈ out, i.Normal isAlphanumeric
  apart : out.IsChain fun b a => Apart a b
  first : ∀ i ∈ out.getLast?, i.StartsLine

theorem Lined.nil :
    Lined isAlphanumeric [] where
  each := List.forall_mem_nil _
  apart := List.isChain_nil
  first := fun _ hNone => absurd hNone (Option.some_ne_none _).symm

theorem Lined.tail
    {i : Inline}
    {before : List Inline}
    (hLined : Lined isAlphanumeric (i :: before)) :
    Lined isAlphanumeric before where
  each := (List.forall_mem_cons.1 hLined.each).2
  apart := (List.isChain_cons.1 hLined.apart).2
  first := by
    intro j hLast
    apply hLined.first
    cases before with
    | nil => cases hLast
    | cons k rest =>
        rw [List.getLast?_cons_cons]
        exact hLast

theorem Lined.cons
    {i : Inline}
    {out : List Inline}
    (hLined : Lined isAlphanumeric out)
    (hNormal : i.Normal isAlphanumeric)
    (hApart : ∀ last ∈ out.head?, Apart last i)
    (hFirst : out = [] → i.StartsLine) :
    Lined isAlphanumeric (i :: out) where
  each := List.forall_mem_cons.2 ⟨hNormal, hLined.each⟩
  apart := hLined.apart.cons hApart
  first := by
    intro j hLast
    cases out with
    | nil =>
        rw [← Option.some.inj hLast]
        exact hFirst rfl
    | cons k rest =>
        rw [List.getLast?_cons_cons] at hLast
        exact hLined.first j hLast

theorem Inline.Normal.text
    {t : List Char}
    (hText : Collapsed t)
    (hSome : t ≠ []) :
    (Inline.Text t).Normal isAlphanumeric :=
  ⟨hText, hSome, trivial⟩

variable {inlines out : List Inline}

theorem trimTrailing_lined
    (hLined : Lined isAlphanumeric out) :
    Lined isAlphanumeric (trimTrailing out) ∧
      ∀ last ∈ (trimTrailing out).head?, last.EndsLine := by
  fun_induction trimTrailing out with
  | case1 before ih => exact ih hLined.tail
  | case2 t before trimmed hEmpty ih => exact ih hLined.tail
  | case3 t before trimmed hSome =>
      have hText := (List.forall_mem_cons.1 hLined.each).1
      have hPart : Collapsed trimmed :=
        hText.tidy.part (List.rdropWhile_prefix _ t).isInfix
      -- the start of the text is still its start
      have hStart : (Inline.Text t).StartsLine →
          (Inline.Text trimmed).StartsLine :=
        fun hOld hHead => hOld (head_rdropWhile hHead)
      refine ⟨?_, ?_⟩
      · apply hLined.tail.cons
        · apply Inline.Normal.text hPart
          rintro hNone
          apply hSome
          rw [hNone]
          rfl
        · intro last hLast
          have hOld := (List.isChain_cons.1 hLined.apart).1 last hLast
          refine ⟨⟨hOld.distinct.texts, hOld.distinct.codes,
            hOld.distinct.emphases⟩, ?_, ?_⟩
          · exact fun hBreak => hStart (hOld.start hBreak)
          · intro hFalse
            cases hFalse
        · rintro rfl
          exact hStart (hLined.first _ rfl)
      · intro last hLast
        cases hLast
        intro hSpace
        have hNot := last_rdropWhile isSpace t ' ' hSpace
        cases hNot
  | case4 out hNotBreak hNotText =>
      refine ⟨hLined, ?_⟩
      intro last hLast
      cases out with
      | nil => cases hLast
      | cons i before =>
          cases hLast
          cases last with
          | LineBreak => exact absurd rfl (hNotBreak before)
          | Text t => exact absurd rfl (hNotText t before)
          | _ => trivial

theorem atLineStart_iff
    (out : List Inline) :
    atLineStart out = true ↔ ∀ last ∈ out.head?, last = .LineBreak := by
  unfold atLineStart
  cases out.head? with
  | none =>
      refine iff_of_true rfl ?_
      intro last hNone
      cases hNone
  | some i =>
      rw [Option.all_some, beq_iff_eq]
      constructor
      · intro hSame last hLast
        rw [← Option.some.inj hLast]
        exact hSame
      · exact fun hAll => hAll i rfl

theorem pushLine_lined
    (hLined : Lined isAlphanumeric out)
    (hAtom : atom.Normal isAlphanumeric)
    (hSeam : ∀ last ∈ out.head?, Distinct last atom) :
    Lined isAlphanumeric (pushLine out atom) ∧
      ∀ last ∈ (pushLine out atom).head?, ∀ next,
        Distinct atom next → Distinct last next := by
  -- inlines other than texts and line breaks are pushed as they are
  have hOther : atom.StartsLine → atom ≠ .LineBreak →
      Lined isAlphanumeric (atom :: out) ∧
        ∀ last ∈ (atom :: out).head?, ∀ next,
          Distinct atom next → Distinct last next := by
    intro hStart hNotBreak
    refine ⟨hLined.cons hAtom ?_ fun _ => hStart, ?_⟩
    · intro last hLast
      exact ⟨hSeam last hLast, fun _ => hStart,
        fun hBreak => absurd hBreak hNotBreak⟩
    · intro last hLast next hNext
      rw [← Option.some.inj hLast]
      exact hNext
  cases atom with
  | Code c => exact hOther trivial (by rintro ⟨⟩)
  | Strong t => exact hOther trivial (by rintro ⟨⟩)
  | Emphasis t => exact hOther trivial (by rintro ⟨⟩)
  | Link t url => exact hOther trivial (by rintro ⟨⟩)
  | LineBreak =>
      rcases trimTrailing_lined hLined with ⟨hTrimmed, hEnds⟩
      unfold pushLine
      dsimp only
      split
      · next hStart =>
          refine ⟨hTrimmed, ?_⟩
          intro last hLast next _
          rw [(atLineStart_iff _).1 hStart last hLast]
          exact Distinct.lineBreak_left next
      · next hInside =>
          refine ⟨hTrimmed.cons hAtom ?_ ?_, ?_⟩
          · intro last hLast
            refine ⟨Distinct.lineBreak_right last, ?_,
              fun _ => hEnds last hLast⟩
            rintro rfl
            exact absurd (hEnds _ hLast) not_false
          · intro hNil
            rw [hNil] at hInside
            exact absurd rfl hInside
          · intro last hLast next _
            rw [← Option.some.inj hLast]
            exact Distinct.lineBreak_left next
  | Text t =>
      unfold pushLine
      dsimp only
      by_cases hStart : atLineStart out = true
      · rw [if_pos hStart]
        have hBreaks := (atLineStart_iff out).1 hStart
        split
        · refine ⟨hLined, ?_⟩
          intro last hLast next _
          rw [hBreaks last hLast]
          exact Distinct.lineBreak_left next
        · next hSome =>
            have hStarts : (Inline.Text (t.dropWhile isSpace)).StartsLine := by
              intro hSpace
              have hNot := head_dropWhile isSpace t ' ' hSpace
              cases hNot
            have hPart : Collapsed (t.dropWhile isSpace) :=
              hAtom.tidy.part (List.dropWhile_suffix _).isInfix
            refine ⟨hLined.cons (Inline.Normal.text hPart ?_) ?_
              fun _ => hStarts, ?_⟩
            · intro hNone
              apply hSome
              rw [hNone]
              rfl
            · intro last hLast
              rw [hBreaks last hLast]
              refine ⟨Distinct.lineBreak_left _, fun _ => hStarts, ?_⟩
              intro hFalse
              cases hFalse
            · intro last hLast next hNext
              rw [← Option.some.inj hLast]
              exact hNext.text
      · rw [if_neg hStart, if_neg]
        · refine ⟨hLined.cons hAtom ?_ ?_, ?_⟩
          · intro last hLast
            refine ⟨hSeam last hLast, ?_, ?_⟩
            · intro hBreak
              exfalso
              apply hStart
              rw [atLineStart_iff]
              intro other hOtherLast
              rw [Option.mem_unique hOtherLast hLast]
              exact hBreak
            · intro hFalse
              cases hFalse
          · rintro rfl
            exact absurd rfl hStart
          · intro last hLast next hNext
            rw [← Option.some.inj hLast]
            exact hNext
        · intro hEmpty
          exact hAtom.filled (List.isEmpty_iff.1 hEmpty)

/- The inlines that are left, from the first of them on. -/
theorem lines_lined
    (hLined : Lined isAlphanumeric out)
    (hAtoms : ∀ a ∈ atoms, a.Normal isAlphanumeric)
    (hApart : atoms.IsChain Distinct)
    (hSeam : ∀ last ∈ out.head?, ∀ next ∈ atoms.head?, Distinct last next) :
    Lined isAlphanumeric (atoms.foldl pushLine out) := by
  induction atoms generalizing out with
  | nil => exact hLined
  | cons atom rest ih =>
      rcases List.forall_mem_cons.1 hAtoms with ⟨hAtom, hRest⟩
      rcases List.isChain_cons.1 hApart with ⟨hNext, hTail⟩
      rcases pushLine_lined hLined hAtom
        (fun last hLast => hSeam last hLast atom rfl) with ⟨hPushed, hHead⟩
      apply ih hPushed hRest hTail
      intro last hLast next hFirst
      exact hHead last hLast next (hNext next hFirst)

------------------------------------------------------------
-- Results Of Normalisation
------------------------------------------------------------

/- The atoms before the last step. -/
def settledAtoms
    (isAlphanumeric : Char → Bool)
    (inlines : List Inline) :
    List Inline :=
  mergeAdjacent (demotedFrom isAlphanumeric none
    (mergeAdjacent (inlines.flatMap atomsOf)))

theorem settledAtoms_normal
    (inlines : List Inline) :
    (∀ a ∈ settledAtoms isAlphanumeric inlines, a.Normal isAlphanumeric) ∧
      (settledAtoms isAlphanumeric inlines).IsChain Distinct := by
  have hTidy : ∀ a ∈ inlines.flatMap atomsOf, a.Tidy := by
    intro a hMem
    rcases List.mem_flatMap.1 hMem with ⟨i, -, hAtom⟩
    exact atomsOf_tidy i a hAtom
  unfold settledAtoms
  generalize hAtoms : mergeAdjacent (inlines.flatMap atomsOf) = atoms
  have hMerged : ∀ a ∈ atoms, a.Tidy ∧ a.Filled := by
    rw [← hAtoms]
    exact mergeAdjacent_tidy hTidy
  have hDemoted : ∀ a ∈ demotedFrom isAlphanumeric none atoms,
      (a.Tidy ∧ a.Filled) ∧ a.Spellable isAlphanumeric :=
    demotedFrom_tidy hMerged
  have hEmphases := demotedFrom_emphasis none atoms
    |> mergeAdjacent_emphasis fun a hMem => (hDemoted a hMem).1.2
  constructor
  · intro a hMem
    have hAgain := mergeAdjacent_tidy
      (fun a hMem => (hDemoted a hMem).1.1) a hMem
    refine ⟨hAgain.1, hAgain.2, ?_⟩
    exact mergeAdjacent_spellable (fun a hMem => (hDemoted a hMem).2) a hMem
  · have hApart := mergeAdjacent_apart (demotedFrom isAlphanumeric none atoms)
    rw [List.isChain_iff_getElem] at hApart hEmphases ⊢
    intro i hLt
    have hKinds := (join_none_iff _ _).1 (hApart i hLt)
    exact ⟨hKinds.1, hKinds.2, hEmphases i hLt⟩

theorem normalizeInlines_normal
    (inlines : List Inline) :
    Normal isAlphanumeric (normalizeInlines isAlphanumeric inlines) := by
  have hAtoms : ∀ a ∈ settledAtoms isAlphanumeric inlines,
      a.Normal isAlphanumeric :=
    (settledAtoms_normal inlines).1
  have hDistinct : (settledAtoms isAlphanumeric inlines).IsChain Distinct :=
    (settledAtoms_normal inlines).2
  have hNoSeam : ∀ last ∈ ([] : List Inline).head?,
      ∀ next ∈ (settledAtoms isAlphanumeric inlines).head?,
        Distinct last next := by
    intro last hNone
    cases hNone
  rcases trimTrailing_lined
    (lines_lined Lined.nil hAtoms hDistinct hNoSeam) with ⟨hLined, hEnds⟩
  change Normal isAlphanumeric (List.reverse _)
  refine ⟨?_, ?_, ?_, ?_⟩
  · intro i hMem
    exact hLined.each i (List.mem_reverse.1 hMem)
  · rw [List.isChain_reverse]
    exact hLined.apart
  · intro i hHead
    rw [List.head?_reverse] at hHead
    exact hLined.first i hHead
  · intro i hLast
    rw [List.getLast?_reverse] at hLast
    exact hEnds i hLast

theorem visible_rdropWhile
    (t : List Char) :
    visible (t.rdropWhile isSpace) = visible t :=
  flatMap_rdropWhile fun _ => visibleChar_space

theorem visible_dropWhile
    (t : List Char) :
    visible (t.dropWhile isSpace) = visible t :=
  flatMap_dropWhile fun _ => visibleChar_space

theorem shown_trimTrailing
    (out : List Inline) :
    shown (trimTrailing out).reverse = shown out.reverse := by
  fun_induction trimTrailing out with
  | case1 before ih =>
      rw [ih, List.reverse_cons, shown_append]
      exact (List.append_nil _).symm
  | case2 t before trimmed hEmpty ih =>
      have hNothing : t.rdropWhile isSpace = [] := List.isEmpty_iff.1 hEmpty
      have hNone : visible t = [] := by
        rw [← visible_rdropWhile, hNothing]
        rfl
      rw [ih, List.reverse_cons, shown_append, shown_cons]
      change _ = _ ++ (visible t ++ [])
      rw [hNone, List.append_nil, List.append_nil]
  | case3 t before trimmed hSome =>
      rw [List.reverse_cons, List.reverse_cons, shown_append, shown_append]
      congr 1
      exact congrArg (· ++ []) (visible_rdropWhile t)
  | case4 => rfl

theorem shown_pushLine
    (out : List Inline)
    (atom : Inline) :
    shown (pushLine out atom).reverse =
      shown out.reverse ++ visible atom.text := by
  have hPush : ∀ i : Inline,
      shown (i :: out).reverse = shown out.reverse ++ visible i.text := by
    intro i
    rw [List.reverse_cons, shown_append, shown_cons]
    exact congrArg (shown out.reverse ++ ·) (List.append_nil _)
  cases atom with
  | Code c => exact hPush _
  | Strong t => exact hPush _
  | Emphasis t => exact hPush _
  | Link t url => exact hPush _
  | LineBreak =>
      unfold pushLine
      dsimp only
      change _ = shown out.reverse ++ []
      rw [List.append_nil, ← shown_trimTrailing out]
      split
      · rfl
      · rw [List.reverse_cons, shown_append]
        exact List.append_nil _
  | Text t =>
      unfold pushLine
      dsimp only
      have hSame : visible
          (if atLineStart out = true then t.dropWhile isSpace else t) =
          visible t := by
        split
        · exact visible_dropWhile t
        · rfl
      generalize (if atLineStart out = true then t.dropWhile isSpace else t)
        = left at hSame
      change _ = shown out.reverse ++ visible t
      rw [← hSame]
      split
      · next hEmpty =>
          rw [List.isEmpty_iff.1 hEmpty]
          exact (List.append_nil _).symm
      · exact hPush (.Text left)

theorem shown_lines
    (atoms out : List Inline) :
    shown (atoms.foldl pushLine out).reverse =
      shown out.reverse ++ shown atoms := by
  induction atoms generalizing out with
  | nil => exact (List.append_nil _).symm
  | cons atom rest ih =>
      rw [List.foldl_cons, ih, shown_pushLine, shown_cons, List.append_assoc]

/- Without links every visible character stays, in its order. -/
theorem shown_normalizeInlines
    (hNoLinks : ∀ i ∈ inlines, isLink i = false) :
    shown (normalizeInlines isAlphanumeric inlines) = shown inlines := by
  have hAtoms : shown (inlines.flatMap atomsOf) = shown inlines := by
    unfold shown
    rw [List.flatMap_assoc]
    apply List.flatMap_congr
    intro i hMem
    exact shown_atomsOf (hNoLinks i hMem)
  unfold normalizeInlines
  dsimp only
  rw [shown_trimTrailing, shown_lines]
  change shown (mergeAdjacent _) = _
  rw [shown_mergeAdjacent, shown_demotedFrom, shown_mergeAdjacent, hAtoms]

theorem map_eq_self
    {text : List Char}
    (hSame : ∀ c ∈ text, f c = c) :
    text.map f = text :=
  (List.map_congr_left hSame).trans (List.map_id text)

theorem replaceNul_eq
    {text : List Char}
    (hPlain : ∀ c ∈ text, c ≠ nul) :
    replaceNul text = text :=
  map_eq_self fun c hMem => if_neg (hPlain c hMem)

theorem replaceCrLf_eq
    {text : List Char}
    (ending : Char)
    (hPlain : ∀ c ∈ text, c ≠ '\r') :
    replaceCrLf ending text = text := by
  fun_induction replaceCrLf ending text with
  | case1 rest ih => exact absurd rfl (hPlain '\r' List.mem_cons_self)
  | case2 c rest _ ih =>
      rw [ih fun d hMem => hPlain d (List.mem_cons_of_mem c hMem)]
  | case3 => rfl

theorem CodeText.codeChars_eq
    {code : List Char}
    (hCode : CodeText code) :
    codeChars code = code := by
  unfold codeChars
  dsimp only
  rw [replaceCrLf_eq ' ' fun c hMem => (hCode.plain c hMem).2.1]
  rw [map_eq_self, replaceNul_eq fun c hMem => (hCode.plain c hMem).1]
  intro c hMem
  exact if_neg (not_or.2 (hCode.plain c hMem).2)

/- The edges of a phrase are no spaces. -/
theorem Phrase.around_eq
    {text : List Char}
    (hPhrase : Phrase text)
    (inline : Inline) :
    leading text ++ inline :: trailing text = [inline] := by
  have hFirst : text.head? ≠ some ' ' := by
    intro hSpace
    have hNot := hPhrase.trimmed.first ' ' hSpace
    cases hNot
  have hLast : text.getLast? ≠ some ' ' := by
    intro hSpace
    have hNot := hPhrase.trimmed.last ' ' hSpace
    cases hNot
  unfold leading trailing
  rw [if_neg hFirst, if_neg hLast]
  rfl

theorem Phrase.shown
    {text : List Char}
    (hPhrase : Phrase text) :
    ¬ (trimBoth isSpace text).isEmpty = true := by
  rw [hPhrase.trimmed.trimBoth_eq]
  exact fun hEmpty => hPhrase.nonempty (List.isEmpty_iff.1 hEmpty)

theorem Phrase.hoisted_eq
    {text : List Char}
    (hPhrase : Phrase text)
    (make : List Char → Inline) :
    hoisted text make = [make text] := by
  unfold hoisted
  dsimp only
  rw [hPhrase.collapsed.collapse_eq, if_neg hPhrase.shown,
    hPhrase.trimmed.trimBoth_eq]
  exact hPhrase.around_eq (make text)

theorem Inline.Tidy.atomsOf_eq
    {i : Inline}
    (hTidy : i.Tidy) :
    atomsOf i = [i] := by
  cases i with
  | Text t =>
      change [Inline.Text (collapse t)] = _
      rw [Collapsed.collapse_eq hTidy]
  | LineBreak => rfl
  | Strong t => exact Phrase.hoisted_eq hTidy .Strong
  | Emphasis t => exact Phrase.hoisted_eq hTidy .Emphasis
  | Code c =>
      unfold atomsOf
      dsimp only
      rw [CodeText.codeChars_eq hTidy, if_neg]
      exact fun hEmpty => hTidy.shown (List.isEmpty_iff.1 hEmpty)
  | Link text url =>
      rcases hTidy with ⟨hText, hUrl⟩
      have hChars := url_phrase hUrl
      unfold atomsOf
      dsimp only
      rw [replaceNul_eq fun c hMem => (hChars.collapsed.plain c hMem).1,
        hUrl, hText.collapsed.collapse_eq, if_neg (by decide),
        if_neg hText.shown, hText.trimmed.trimBoth_eq]
      exact hText.around_eq _

theorem mergeAdjacent_self
    (hNormal : ∀ i ∈ inlines, i.Normal isAlphanumeric)
    (hApart : inlines.IsChain Apart) :
    mergeAdjacent inlines = inlines := by
  apply Merging.merge_self
  · exact fun i hMem => (dropped_iff i).2 (hNormal i hMem).filled
  · apply hApart.imp
    intro a b hAb
    exact (join_none_iff a b).2 ⟨hAb.distinct.texts, hAb.distinct.codes⟩

theorem not_space_of_ne
    {edge : Option Char}
    (hEdge : edge ≠ some ' ') :
    ∀ c ∈ edge, isSpace c = false := by
  intro c hMem
  rw [Bool.eq_false_iff]
  intro hSpace
  apply hEdge
  rw [Option.mem_def.1 hMem, beq_iff_eq.1 hSpace]

theorem trimTrailing_self
    (hEnds : ∀ last ∈ out.head?, last.EndsLine)
    (hFilled : ∀ i ∈ out, i.Filled) :
    trimTrailing out = out := by
  unfold trimTrailing
  split
  · next before => exact absurd (hEnds _ rfl) not_false
  · next t before =>
      have hLast : ∀ c ∈ t.getLast?, isSpace c = false :=
        not_space_of_ne (hEnds _ rfl)
      dsimp only
      rw [rdropWhile_eq_self hLast, if_neg]
      exact fun hEmpty =>
        hFilled _ List.mem_cons_self (List.isEmpty_iff.1 hEmpty)
  · rfl

/- A normal inline is pushed as it is. -/
theorem pushLine_self
    (hOut : ∀ i ∈ out, i.Filled)
    (hAtom : atom.Filled)
    (hSeam : ∀ last ∈ out.head?, Apart last atom)
    (hFirst : out = [] → atom.StartsLine) :
    pushLine out atom = atom :: out := by
  cases atom with
  | Code c => rfl
  | Strong t => rfl
  | Emphasis t => rfl
  | Link t url => rfl
  | LineBreak =>
      have hEnds : ∀ last ∈ out.head?, last.EndsLine :=
        fun last hLast => (hSeam last hLast).stop rfl
      unfold pushLine
      dsimp only
      rw [trimTrailing_self hEnds hOut, if_neg]
      rw [atLineStart_iff]
      intro hBreaks
      cases out with
      | nil => exact hFirst rfl
      | cons last before =>
          have hEnd := hEnds last rfl
          rw [hBreaks last rfl] at hEnd
          exact hEnd
  | Text t =>
      have hStart : atLineStart out = true → t.head? ≠ some ' ' := by
        rw [atLineStart_iff]
        intro hBreaks
        cases out with
        | nil => exact hFirst rfl
        | cons last before => exact (hSeam last rfl).start (hBreaks last rfl)
      have hSame :
          (if atLineStart out = true then t.dropWhile isSpace else t) = t := by
        split
        · next hTrue => exact dropWhile_eq_self (not_space_of_ne (hStart hTrue))
        · rfl
      unfold pushLine
      dsimp only
      rw [hSame, if_neg]
      exact fun hEmpty => hAtom (List.isEmpty_iff.1 hEmpty)

theorem lines_self
    (hOut : ∀ i ∈ out, i.Filled)
    (hAtoms : ∀ a ∈ atoms, a.Filled)
    (hApart : atoms.IsChain Apart)
    (hSeam : ∀ last ∈ out.head?, ∀ next ∈ atoms.head?, Apart last next)
    (hFirst : out = [] → ∀ next ∈ atoms.head?, next.StartsLine) :
    atoms.foldl pushLine out = atoms.reverse ++ out := by
  induction atoms generalizing out with
  | nil => rfl
  | cons atom rest ih =>
      rcases List.forall_mem_cons.1 hAtoms with ⟨hAtom, hRest⟩
      rcases List.isChain_cons.1 hApart with ⟨hNext, hTail⟩
      have hPush : pushLine out atom = atom :: out :=
        pushLine_self hOut hAtom (fun last hLast => hSeam last hLast atom rfl)
          fun hNil => hFirst hNil atom rfl
      rw [List.foldl_cons, hPush, List.reverse_cons, List.append_assoc]
      apply ih (List.forall_mem_cons.2 ⟨hAtom, hOut⟩) hRest hTail
      · intro last hLast
        rw [← Option.some.inj hLast]
        exact hNext
      · intro hNil
        cases hNil

theorem Normal.normalizeInlines_eq
    (hNormal : Normal isAlphanumeric inlines) :
    normalizeInlines isAlphanumeric inlines = inlines := by
  have hFilled : ∀ i ∈ inlines, i.Filled :=
    fun i hMem => (hNormal.each i hMem).filled
  have hAtoms : inlines.flatMap atomsOf = inlines := by
    rw [List.flatMap_congr fun i hMem => (hNormal.each i hMem).tidy.atomsOf_eq]
    exact List.flatMap_singleton' inlines
  have hMerged := mergeAdjacent_self hNormal.each hNormal.apart
  have hDemoted : demotedFrom isAlphanumeric none inlines = inlines := by
    apply demotedFrom_self fun i hMem => (hNormal.each i hMem).spellable
    · exact hNormal.apart.imp fun _ _ hApart => hApart.distinct.emphases
    · intro a hNone
      cases hNone
  have hLines : inlines.foldl pushLine [] = inlines.reverse := by
    rw [lines_self (List.forall_mem_nil _) hFilled hNormal.apart,
      List.append_nil]
    · intro last hNone
      cases hNone
    · exact fun _ => hNormal.first
  unfold normalizeInlines
  dsimp only
  rw [hAtoms, hMerged, hDemoted, hMerged, hLines, trimTrailing_self,
    List.reverse_reverse]
  · intro last hLast
    rw [List.head?_reverse] at hLast
    exact hNormal.last last hLast
  · exact fun i hMem => hFilled i (List.mem_reverse.1 hMem)

end NormalForm

end Markdown

end Lsp

end Borzoi
