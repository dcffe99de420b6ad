import Borzoi.Lsp.MarkdownNormal
import Borzoi.Text.Joined

/-
  The normal form of documents.

  Main declarations:
    * `block_induction`
    * `paragraphs`
    * `textOf`
    * `normalize_settles`
-/

namespace Borzoi

namespace Lsp

namespace Markdown

open Text

mutual

/- The inlines of the paragraphs of a tree. -/
def paragraphs :
    List Block → List (List Inline)
  | [] => []
  | block :: rest => blockParagraphs block ++ paragraphs rest

def blockParagraphs :
    Block → List (List Inline)
  | .Paragraph inlines => [inlines]
  | .CodeBlock _ _ => []
  | .List _ items => itemParagraphs items

def itemParagraphs :
    List (List Block) → List (List Inline)
  | [] => []
  | item :: rest => paragraphs item ++ itemParagraphs rest

end

mutual

/- The text that a reader sees. -/
def textOf :
    List Block → List Char
  | [] => []
  | block :: rest => blockText block ++ ' ' :: textOf rest

def blockText :
    Block → List Char
  | .Paragraph inlines => inlines.flatMap Inline.text
  | .CodeBlock _ code => code
  | .List _ items => itemsText items

def itemsText :
    List (List Block) → List Char
  | [] => []
  | item :: rest => textOf item ++ itemsText rest

end

theorem paragraphs_eq
    (blocks : List Block) :
    paragraphs blocks = blocks.flatMap blockParagraphs := by
  induction blocks with
  | nil => rfl
  | cons block rest ih => rw [paragraphs, List.flatMap_cons, ih]

theorem itemParagraphs_eq
    (items : List (List Block)) :
    itemParagraphs items = items.flatMap paragraphs := by
  induction items with
  | nil => rfl
  | cons item rest ih => rw [itemParagraphs, List.flatMap_cons, ih]

variable {items : List (List Block)} {code : List Char} {inlines : List Inline}

/- The paragraphs of an item are paragraphs of its list. -/
theorem mem_itemParagraphs
    {item : List Block}
    {block : Block}
    (hItem : item ∈ items)
    (hBlock : block ∈ item)
    (hInlines : inlines ∈ blockParagraphs block) :
    inlines ∈ itemParagraphs items := by
  rw [itemParagraphs_eq, List.mem_flatMap]
  refine ⟨item, hItem, ?_⟩
  rw [paragraphs_eq, List.mem_flatMap]
  exact ⟨block, hBlock, hInlines⟩

def LinkFree
    (blocks : List Block) :
    Prop :=
  ∀ inlines ∈ paragraphs blocks, ∀ i ∈ inlines, isLink i = false

section Induction

variable {P : Block → Prop}

mutual

theorem block_induction
    (hParagraph : ∀ inlines, P (.Paragraph inlines))
    (hCode : ∀ language code, P (.CodeBlock language code))
    (hList : ∀ ordered items,
      (∀ item ∈ items, ∀ block ∈ item, P block) → P (.List ordered items)) :
    ∀ block, P block
  | .Paragraph inlines => hParagraph inlines
  | .CodeBlock language code => hCode language code
  | .List ordered items =>
      hList ordered items
        (items_induction hParagraph hCode hList items)

theorem items_induction
    (hParagraph : ∀ inlines, P (.Paragraph inlines))
    (hCode : ∀ language code, P (.CodeBlock language code))
    (hList : ∀ ordered items,
      (∀ item ∈ items, ∀ block ∈ item, P block) → P (.List ordered items)) :
    ∀ items : List (List Block), ∀ item ∈ items, ∀ block ∈ item, P block
  | [] => List.forall_mem_nil _
  | item :: rest =>
      List.forall_mem_cons.2
        ⟨blocks_induction hParagraph hCode hList item,
          items_induction hParagraph hCode hList rest⟩

theorem blocks_induction
    (hParagraph : ∀ inlines, P (.Paragraph inlines))
    (hCode : ∀ language code, P (.CodeBlock language code))
    (hList : ∀ ordered items,
      (∀ item ∈ items, ∀ block ∈ item, P block) → P (.List ordered items)) :
    ∀ blocks : List Block, ∀ block ∈ blocks, P block
  | [] => List.forall_mem_nil _
  | block :: rest =>
      List.forall_mem_cons.2
        ⟨block_induction hParagraph hCode hList block,
          blocks_induction hParagraph hCode hList rest⟩

end

end Induction

/- The lines of code, of which the first and the last show something. -/
structure CodeLines
    (code : List Char) :
    Prop where
  plain : ∀ c ∈ code, c ≠ nul ∧ c ≠ '\r'
  trimmed : Trimmed isBlankLine (code.splitOn '\n')

/- The characters of code before its blank lines go. -/
def blockChars
    (code : List Char) :
    List Char :=
  replaceNul ((replaceCrLf '\n' code).map fun c => if c = '\r' then '\n' else c)

theorem blockChars_plain
    (code : List Char) :
    ∀ c ∈ blockChars code, c ≠ nul ∧ c ≠ '\r' := by
  intro c hMem
  unfold blockChars replaceNul at hMem
  rcases List.mem_map.1 hMem with ⟨d, hD, rfl⟩
  rcases List.mem_map.1 hD with ⟨e, -, rfl⟩
  by_cases hReturn : e = '\r'
  · rw [if_pos hReturn]
    decide
  · rw [if_neg hReturn]
    split
    · decide
    · next hNotNul => exact ⟨hNotNul, hReturn⟩

theorem blockChars_eq
    (hPlain : ∀ c ∈ code, c ≠ nul ∧ c ≠ '\r') :
    blockChars code = code := by
  unfold blockChars
  rw [replaceCrLf_eq '\n' fun c hMem => (hPlain c hMem).2, map_eq_self,
    replaceNul_eq fun c hMem => (hPlain c hMem).1]
  exact fun c hMem => if_neg (hPlain c hMem).2

theorem visible_blockChars
    (code : List Char) :
    visible (blockChars code) = visible code := by
  unfold blockChars
  rw [visible_replaceNul, visible_map, visible_replaceCrLf (by decide)]
  intro c
  split
  · next hReturn =>
      rw [hReturn]
      rfl
  · rfl

/- The lines between the blank ones at the edges, split again. -/
theorem splitOn_normalizeCode
    (hSome : normalizeCode code ≠ []) :
    (normalizeCode code).splitOn '\n' =
      trimBoth isBlankLine ((blockChars code).splitOn '\n') := by
  apply List.splitOn_intercalate
  · intro line hMem hBreak
    have hLine := (trimBoth_within _ _).mem hMem
    have hNot := (mem_splitOnP hLine hBreak).2
    cases hNot
  · intro hNone
    exact hSome (congrArg ['\n'].intercalate hNone)

theorem visible_intercalate
    (lines : List (List Char)) :
    visible (['\n'].intercalate lines) = lines.flatMap visible := by
  cases lines with
  | nil => rfl
  | cons line rest =>
      rw [intercalate_cons, visible_append, List.flatMap_cons]
      congr 1
      unfold visible
      rw [List.flatMap_assoc]
      rfl

theorem visible_blankLine
    {line : List Char}
    (hBlank : isBlankLine line = true) :
    visible line = [] := by
  unfold visible
  rw [List.flatMap_eq_nil_iff]
  intro c hMem
  have hChar := List.all_eq_true.1 hBlank c hMem
  rw [Bool.or_eq_true, beq_iff_eq, beq_iff_eq] at hChar
  rcases hChar with rfl | rfl
  · rfl
  · rfl

theorem visible_normalizeCode
    (code : List Char) :
    visible (normalizeCode code) = visible code := by
  change visible (['\n'].intercalate
    (trimBoth isBlankLine ((blockChars code).splitOn '\n'))) = _
  rw [visible_intercalate, flatMap_trimBoth fun _ => visible_blankLine,
    ← visible_intercalate, List.intercalate_splitOn, visible_blockChars]

theorem normalizeCode_lines
    (hSome : normalizeCode code ≠ []) :
    CodeLines (normalizeCode code) where
  plain := by
    intro c hMem
    rcases mem_intercalate hMem with hBreak | ⟨line, hLine, hChar⟩
    · rw [List.mem_singleton.1 hBreak]
      decide
    · have hOld := (trimBoth_within _ _).mem hLine
      exact blockChars_plain code c (mem_splitOnP hOld hChar).1
  trimmed := by
    rw [splitOn_normalizeCode hSome]
    exact trimBoth_trimmed _ _

theorem CodeLines.normalizeCode_eq
    (hCode : CodeLines code) :
    normalizeCode code = code := by
  change ['\n'].intercalate
    (trimBoth isBlankLine ((blockChars code).splitOn '\n')) = code
  rw [blockChars_eq hCode.plain, hCode.trimmed.trimBoth_eq,
    List.intercalate_splitOn]

theorem normalizeLanguage_eq
    (language : Option (List Char)) :
    normalizeLanguage (normalizeLanguage language) =
      normalizeLanguage language := by
  unfold normalizeLanguage
  cases language with
  | none => rfl
  | some l =>
      dsimp only [Option.map_some]
      rw [Option.filter_some]
      split
      · next hSome =>
          rw [Option.map_some, List.filter_filter, Option.filter_some,
            if_pos]
          · simp only [Bool.and_self]
          · simpa only [Bool.and_self] using hSome
      · rfl

------------------------------------------------------------
-- Blocks
------------------------------------------------------------

section Blocks

variable {isAlphanumeric : Char → Bool}

theorem normalize_eq
    (blocks : List Block) :
    normalize isAlphanumeric blocks =
      blocks.filterMap (normalizeBlock isAlphanumeric) := by
  induction blocks with
  | nil => rfl
  | cons block rest ih =>
      rw [normalize, List.filterMap_cons]
      cases normalizeBlock isAlphanumeric block with
      | none => exact ih
      | some normal => exact congrArg (normal :: ·) ih

theorem normalizeItems_eq
    (items : List (List Block)) :
    normalizeItems isAlphanumeric items =
      (items.map (normalize isAlphanumeric)).filter
        fun item => !item.isEmpty := by
  induction items with
  | nil => rfl
  | cons item rest ih =>
      rw [normalizeItems, List.map_cons, List.filter_cons]
      cases (normalize isAlphanumeric item).isEmpty with
      | true => exact ih
      | false => exact congrArg (_ :: ·) ih

variable {blocks : List Block}

/- A block of the result is one that stays as it is. -/
theorem normalize_idempotent_of
    (hBlocks : ∀ block ∈ blocks, ∀ normal,
      normalizeBlock isAlphanumeric block = some normal →
        normalizeBlock isAlphanumeric normal = some normal) :
    normalize isAlphanumeric (normalize isAlphanumeric blocks) =
      normalize isAlphanumeric blocks := by
  induction blocks with
  | nil => rfl
  | cons block rest ih =>
      rcases List.forall_mem_cons.1 hBlocks with ⟨hBlock, hRest⟩
      rw [normalize]
      cases hNormal : normalizeBlock isAlphanumeric block with
      | none => exact ih hRest
      | some normal =>
          dsimp only
          rw [normalize, hBlock normal hNormal, ih hRest]

theorem normalizeBlock_idempotent
    (block : Block) :
    ∀ normal, normalizeBlock isAlphanumeric block = some normal →
      normalizeBlock isAlphanumeric normal = some normal := by
  induction block using block_induction with
  | hParagraph inlines =>
      intro normal hSome
      rw [normalizeBlock] at hSome
      split at hSome
      · cases hSome
      · next hNonempty =>
          cases hSome
          rw [normalizeBlock, (normalizeInlines_normal inlines).normalizeInlines_eq]
          exact if_neg hNonempty
  | hCode language code =>
      intro normal hSome
      rw [normalizeBlock] at hSome
      split at hSome
      · cases hSome
      · next hNonempty =>
          cases hSome
          have hLines : CodeLines (normalizeCode code) := by
            apply normalizeCode_lines
            intro hNone
            rw [hNone] at hNonempty
            exact hNonempty rfl
          rw [normalizeBlock, hLines.normalizeCode_eq, normalizeLanguage_eq]
          exact if_neg hNonempty
  | hList ordered items ih =>
      intro normal hSome
      rw [normalizeBlock] at hSome
      split at hSome
      · cases hSome
      · next hNonempty =>
          cases hSome
          have hItems : normalizeItems isAlphanumeric
              (normalizeItems isAlphanumeric items) =
                normalizeItems isAlphanumeric items := by
            rw [normalizeItems_eq, normalizeItems_eq]
            have hSame : ∀ item ∈ (items.map (normalize isAlphanumeric)).filter
                (fun item => !item.isEmpty),
                normalize isAlphanumeric item = item := by
              intro item hMem
              rcases List.mem_map.1 (List.mem_of_mem_filter hMem) with
                ⟨old, hOld, rfl⟩
              exact normalize_idempotent_of (ih old hOld)
            rw [List.map_congr_left hSame, List.map_id', List.filter_filter]
            simp only [Bool.and_self]
          rw [normalizeBlock, hItems]
          exact if_neg hNonempty

theorem visible_inlines
    (inlines : List Inline) :
    visible (inlines.flatMap Inline.text) = shown inlines :=
  List.flatMap_assoc

/- What stays of a block shows what the block shows. -/
def Keeps
    (isAlphanumeric : Char → Bool)
    (block : Block) :
    Prop :=
  visible (((normalizeBlock isAlphanumeric block).map blockText).getD []) =
    visible (blockText block)

theorem visible_normalize_of
    (hBlocks : ∀ block ∈ blocks, Keeps isAlphanumeric block) :
    visible (textOf (normalize isAlphanumeric blocks)) =
      visible (textOf blocks) := by
  induction blocks with
  | nil => rfl
  | cons block rest ih =>
      rcases List.forall_mem_cons.1 hBlocks with ⟨hBlock, hRest⟩
      have hText : ∀ (b : Block) (others : List Block),
          visible (textOf (b :: others)) =
            visible (blockText b) ++ visible (textOf others) := by
        intro b others
        rw [textOf, visible_append]
        rfl
      unfold Keeps at hBlock
      rw [normalize, hText, ← hBlock, ← ih hRest]
      cases normalizeBlock isAlphanumeric block with
      | none => rfl
      | some normal => exact hText normal _

theorem visible_normalizeItems_of
    (hItems : ∀ item ∈ items, ∀ block ∈ item, Keeps isAlphanumeric block) :
    visible (itemsText (normalizeItems isAlphanumeric items)) =
      visible (itemsText items) := by
  induction items with
  | nil => rfl
  | cons item rest ih =>
      rcases List.forall_mem_cons.1 hItems with ⟨hItem, hRest⟩
      rw [normalizeItems, itemsText, visible_append,
        ← visible_normalize_of hItem, ← ih hRest]
      cases hNormal : normalize isAlphanumeric item with
      | nil => rfl
      | cons block others =>
          change visible (itemsText
            ((block :: others) :: normalizeItems isAlphanumeric rest)) = _
          rw [itemsText, visible_append]

theorem keeps_of_linkFree
    (block : Block) :
    (∀ inlines ∈ blockParagraphs block, ∀ i ∈ inlines, isLink i = false) →
      Keeps isAlphanumeric block := by
  induction block using block_induction with
  | hParagraph inlines =>
      intro hNoLinks
      have hShown : shown (normalizeInlines isAlphanumeric inlines) =
          shown inlines :=
        shown_normalizeInlines (hNoLinks inlines List.mem_cons_self)
      unfold Keeps
      rw [normalizeBlock, blockText, visible_inlines, ← hShown]
      split
      · next hEmpty =>
          rw [List.isEmpty_iff.1 hEmpty]
          rfl
      · exact visible_inlines _
  | hCode language code =>
      intro _
      unfold Keeps
      rw [normalizeBlock, blockText, ← visible_normalizeCode code]
      split
      · next hEmpty =>
          rw [List.isEmpty_iff.1 hEmpty]
          rfl
      · rfl
  | hList ordered items ih =>
      intro hNoLinks
      have hItems : ∀ item ∈ items, ∀ block ∈ item,
          Keeps isAlphanumeric block := by
        intro item hItem block hBlock
        apply ih item hItem block hBlock
        intro inlines hMem
        exact hNoLinks inlines (mem_itemParagraphs hItem hBlock hMem)
      unfold Keeps
      rw [normalizeBlock, blockText, ← visible_normalizeItems_of hItems]
      split
      · next hEmpty =>
          rw [List.isEmpty_iff.1 hEmpty]
          rfl
      · rfl

theorem mem_normalize
    (hMem : inlines ∈ paragraphs (normalize isAlphanumeric blocks)) :
    ∃ block ∈ blocks, ∃ normal,
      normalizeBlock isAlphanumeric block = some normal ∧
        inlines ∈ blockParagraphs normal := by
  rw [paragraphs_eq, List.mem_flatMap, normalize_eq] at hMem
  rcases hMem with ⟨normal, hNormal, hInlines⟩
  rcases List.mem_filterMap.1 hNormal with ⟨block, hBlock, hSome⟩
  exact ⟨block, hBlock, normal, hSome, hInlines⟩

theorem normalizeBlock_normal
    (block : Block) :
    ∀ normal, normalizeBlock isAlphanumeric block = some normal →
      ∀ inlines ∈ blockParagraphs normal, Normal isAlphanumeric inlines := by
  induction block using block_induction with
  | hParagraph inlines =>
      intro normal hSome result hMem
      rw [normalizeBlock] at hSome
      split at hSome
      · cases hSome
      · cases hSome
        rw [List.mem_singleton.1 hMem]
        exact normalizeInlines_normal inlines
  | hCode language code =>
      intro normal hSome result hMem
      rw [normalizeBlock] at hSome
      split at hSome
      · cases hSome
      · cases hSome
        cases hMem
  | hList ordered items ih =>
      intro normal hSome result hMem
      rw [normalizeBlock] at hSome
      split at hSome
      · cases hSome
      · cases hSome
        rw [blockParagraphs, itemParagraphs_eq, List.mem_flatMap,
          normalizeItems_eq] at hMem
        rcases hMem with ⟨item, hItem, hInlines⟩
        rcases List.mem_map.1 (List.mem_of_mem_filter hItem) with
          ⟨old, hOld, rfl⟩
        rcases mem_normalize hInlines with
          ⟨block, hBlock, normal, hNormal, hThere⟩
        exact ih old hOld block hBlock normal hNormal result hThere

theorem normalize_normal
    (blocks : List Block) :
    ∀ inlines ∈ paragraphs (normalize isAlphanumeric blocks),
      Normal isAlphanumeric inlines := by
  intro inlines hMem
  rcases mem_normalize hMem with ⟨block, -, normal, hNormal, hThere⟩
  exact normalizeBlock_normal block normal hNormal inlines hThere

end Blocks

/-
  A normal tree stays as it is.  Without links it shows every character
  of the tree it comes from, in order.  Its paragraphs are in normal
  form, wherever they stand.
-/
theorem normalize_settles
    (isAlphanumeric : Char → Bool)
    (blocks : List Block) :
    normalize isAlphanumeric (normalize isAlphanumeric blocks) =
        normalize isAlphanumeric blocks ∧
      (LinkFree blocks →
        visible (textOf (normalize isAlphanumeric blocks)) =
          visible (textOf blocks)) ∧
      ∀ inlines ∈ paragraphs (normalize isAlphanumeric blocks),
        Normal isAlphanumeric inlines := by
  refine ⟨?_, ?_, normalize_normal blocks⟩
  · exact normalize_idempotent_of
      fun block _ => normalizeBlock_idempotent block
  · intro hNoLinks
    apply visible_normalize_of
    intro block hBlock
    apply keeps_of_linkFree
    intro inlines hMem
    apply hNoLinks
    rw [paragraphs_eq]
    exact List.mem_flatMap.2 ⟨block, hBlock, hMem⟩

end Markdown

end Lsp

end Borzoi
