import Borzoi.Assembly.DocId
import Borzoi.Text.Decimal
import Borzoi.Text.Joined

/-
  The computed id of a member as its own key.

  Encodings are never cut at their commas and close every array suffix,
  and a head holds no parenthesis and no two ticks but those of a
  generic method.  So a key gives back the head and the encodings.

  Main declarations:
    * `Encodes`
    * `typeText_encodes`
    * `arraysFit_self`
    * `behindTicks_head`
    * `own_key_fits`
-/

namespace Borzoi

namespace Assembly

namespace DocId

open Text (Mark cutLoop UncutFrom Solid Inner cutLoop_intercalate)

/- No brace, bracket or comma. -/
def NamePlain
    (name : List Char) :
    Prop :=
  ∀ c ∈ name, markOf c = .plain

/- The names in a type hold no brace, bracket or comma. -/
inductive PlainType : TypeRef → Prop
  | Primitive (p : DocId.Primitive) :
      PlainType (.Primitive p)
  | Named (space : List (List Char)) (name : List Char)
      (typeArgs : List TypeRef) (segmentArities : List Nat)
      (hSpace : ∀ segment ∈ space, NamePlain segment)
      (hName : NamePlain name)
      (hArgs : ∀ a ∈ typeArgs, PlainType a) :
      PlainType (.Named space name typeArgs segmentArities)
  | Var (index : Nat) (isMethod : Bool) :
      PlainType (.Var index isMethod)
  | Array (element : TypeRef) (rank : Nat) (sizes : List Nat)
      (lowerBounds : List Int) (hElement : PlainType element) :
      PlainType (.Array element rank sizes lowerBounds)
  | Ptr (pointee : TypeRef) (hPointee : PlainType pointee) :
      PlainType (.Ptr pointee)
  | VoidPtr :
      PlainType .VoidPtr
  | ByRef (inner : TypeRef) (hInner : PlainType inner) :
      PlainType (.ByRef inner)

/- Every array suffix is closed. -/
def Closed
    (s : List Char) :
    Prop :=
  ∀ a b, s = a ++ '[' :: b → ']' ∈ b

/- What holds of the encoding of a type. -/
structure Encodes
    (s : List Char) :
    Prop where
  solid : Solid markOf s
  closed : Closed s

variable {s t : List Char}

theorem markOf_plain_iff
    {c : Char} :
    markOf c = .plain ↔ c ∉ ['{', '[', '}', ']', ','] := by
  unfold markOf
  constructor
  · intro hPlain hMem
    split_ifs at hPlain with hOpen hClose hComma
    simp only [List.mem_cons, List.not_mem_nil, or_false] at hMem
    rcases hMem with h | h | h | h | h
    · exact hOpen (.inl h)
    · exact hOpen (.inr h)
    · exact hClose (.inl h)
    · exact hClose (.inr h)
    · exact hComma h
  · intro hNot
    simp only [List.mem_cons, List.not_mem_nil, or_false, not_or]
      at hNot
    rcases hNot with ⟨hBrace, hBracket, hBrace', hBracket', hComma⟩
    rw [if_neg (not_or.2 ⟨hBrace, hBracket⟩),
      if_neg (not_or.2 ⟨hBrace', hBracket'⟩), if_neg hComma]

theorem not_mem_of_plain
    {mark : Char}
    (hPlain : NamePlain s)
    (hMark : markOf mark ≠ .plain) :
    mark ∉ s :=
  fun hMem => hMark (hPlain mark hMem)

theorem Closed.of_not_mem
    (hNot : '[' ∉ s) :
    Closed s := by
  rintro a b rfl
  exact absurd (List.mem_append_right a List.mem_cons_self) hNot

theorem Closed.append
    (hFirst : Closed s)
    (hSecond : Closed t) :
    Closed (s ++ t) := by
  intro a b hSplit
  rcases List.append_eq_append_iff.1 hSplit with
    ⟨more, -, hT⟩ | ⟨more, hS, hB⟩
  · exact hSecond more b hT
  · cases more with
    | nil => exact hSecond [] b hB.symm
    | cons c more =>
        rw [List.cons_append] at hB
        cases hB
        exact List.mem_append_left _ (hFirst a more hS)

theorem Closed.of_append
    (hClosed : Closed (s ++ t)) :
    Closed t := by
  rintro a b rfl
  exact hClosed (s ++ a) b (by rw [List.append_assoc])

theorem Encodes.plain
    (hPlain : NamePlain s) :
    Encodes s where
  solid := UncutFrom.plain hPlain
  closed := Closed.of_not_mem (not_mem_of_plain hPlain (by decide))

theorem Encodes.nil :
    Encodes [] :=
  Encodes.plain fun _ hMem => absurd hMem List.not_mem_nil

theorem Encodes.append
    (hFirst : Encodes s)
    (hSecond : Encodes t) :
    Encodes (s ++ t) where
  solid := hFirst.solid.append hSecond.solid
  closed := hFirst.closed.append hSecond.closed

variable {c separator : Char} {parts space texts : List (List Char)}
variable {head name s segment : List Char} {decl : TypeDocName}

theorem closed_joined
    (hSeparator : separator ≠ '[')
    (hParts : ∀ part ∈ parts, Closed part) :
    Closed (joined separator parts) := by
  unfold joined
  induction parts with
  | nil => exact Closed.of_not_mem List.not_mem_nil
  | cons part parts ih =>
      have hHere := hParts part List.mem_cons_self
      have hRest := ih fun p hp => hParts p (List.mem_cons_of_mem _ hp)
      have hMid : Closed [separator] :=
        Closed.of_not_mem fun hMem =>
          hSeparator (List.mem_singleton.1 hMem).symm
      cases parts with
      | nil =>
          rw [List.intercalate_singleton]
          exact hHere
      | cons next parts =>
          rw [List.intercalate_cons_cons]
          exact (hHere.append hMid).append hRest

/- Parts joined by dots. -/
theorem Encodes.dotted
    (hParts : ∀ part ∈ parts, Encodes part) :
    Encodes (joined '.' parts) := by
  unfold joined
  induction parts with
  | nil => exact Encodes.nil
  | cons part parts ih =>
      have hHere := hParts part List.mem_cons_self
      have hRest := ih fun p hp => hParts p (List.mem_cons_of_mem _ hp)
      have hDot : Encodes ['.'] := by
        apply Encodes.plain
        intro c hMem
        rw [List.mem_singleton.1 hMem]
        rfl
      cases parts with
      | nil =>
          rw [List.intercalate_singleton]
          exact hHere
      | cons next parts =>
          rw [List.intercalate_cons_cons]
          exact (hHere.append hDot).append hRest

theorem inner_joined
    (hParts : ∀ part ∈ parts, Solid markOf part) :
    Inner markOf (joined ',' parts) :=
  Inner.intercalate rfl fun part hMem => (hParts part hMem).inner

/- Arguments in braces. -/
theorem Encodes.braced
    (hParts : ∀ part ∈ parts, Encodes part) :
    Encodes (DocId.braced parts) where
  solid := Inner.brackets rfl rfl
    (inner_joined fun part hMem => (hParts part hMem).solid)
  closed := by
    have hOpen : Closed ['{'] := Closed.of_not_mem (by decide)
    have hClose : Closed ['}'] := Closed.of_not_mem (by decide)
    have hMid : Closed (joined ',' parts) :=
      closed_joined (by decide) fun part hMem => (hParts part hMem).closed
    exact (hOpen.append hMid).append hClose

theorem natText_plain
    (n : Nat) :
    NamePlain (natText n) := by
  intro c hMem
  have hDigit := Text.isDigit_of_mem_toDigits hMem
  rw [markOf_plain_iff]
  intro hMark
  simp only [List.mem_cons, List.not_mem_nil, or_false] at hMark
  rcases hMark with rfl | rfl | rfl | rfl | rfl <;> cases hDigit

theorem NamePlain.append
    (hFirst : NamePlain s)
    (hSecond : NamePlain t) :
    NamePlain (s ++ t) := by
  intro c hMem
  rcases List.mem_append.1 hMem with hLeft | hRight
  · exact hFirst c hLeft
  · exact hSecond c hRight

theorem NamePlain.cons
    {c : Char}
    (hHere : markOf c = .plain)
    (hRest : NamePlain s) :
    NamePlain (c :: s) := by
  intro d hMem
  rcases List.mem_cons.1 hMem with rfl | hIn
  · exact hHere
  · exact hRest d hIn

theorem NamePlain.nil :
    NamePlain [] :=
  fun _ hMem => absurd hMem List.not_mem_nil

theorem intText_plain
    (n : Int) :
    NamePlain (intText n) := by
  cases n with
  | ofNat n => exact natText_plain n
  | negSucc n => exact (natText_plain (n + 1)).cons rfl

theorem dimension_plain
    (sizes : List Nat)
    (lowerBounds : List Int)
    (i : Nat) :
    NamePlain (dimension sizes lowerBounds i) := by
  unfold dimension
  cases sizes[i]? with
  | some size =>
      exact (intText_plain _).append ((natText_plain size).cons rfl)
  | none =>
      exact (intText_plain _).append (NamePlain.nil.cons rfl)

/- The suffix of an array. -/
theorem Encodes.arraySuffix
    (rank : Nat)
    (sizes : List Nat)
    (lowerBounds : List Int) :
    Encodes (DocId.arraySuffix rank sizes lowerBounds) := by
  have hBrackets : ∀ dims : List (List Char),
      (∀ dim ∈ dims, NamePlain dim) →
      Encodes ('[' :: joined ',' dims ++ [']']) := by
    intro dims hDims
    refine ⟨?_, ?_⟩
    · exact Inner.brackets rfl rfl
        (inner_joined fun dim hMem => (Encodes.plain (hDims dim hMem)).solid)
    · intro a b hSplit
      cases a with
      | nil =>
          cases hSplit
          exact List.mem_append_right _ List.mem_cons_self
      | cons c a =>
          have hRest := (List.cons.inj hSplit).2
          have hTail : Closed (joined ',' dims ++ [']']) :=
            (closed_joined (by decide) fun dim hMem =>
              (Encodes.plain (hDims dim hMem)).closed).append
              (Closed.of_not_mem (by decide))
          exact hTail a b hRest
  unfold DocId.arraySuffix
  split_ifs
  · exact hBrackets [] fun _ hMem => absurd hMem List.not_mem_nil
  · apply hBrackets
    intro dim hMem
    rcases List.mem_map.1 hMem with ⟨i, -, rfl⟩
    exact dimension_plain sizes lowerBounds i

theorem demangleSegment_plain
    (hPlain : NamePlain segment) :
    NamePlain (demangleSegment segment) := by
  unfold demangleSegment splitLastTick
  split
  · next hSome =>
      split_ifs at hSome
      cases hSome
      split_ifs
      · intro c hMem
        exact hPlain c (List.mem_of_mem_take hMem)
      · exact hPlain
  · exact hPlain

theorem spaceText_plain
    (hSpace : ∀ segment ∈ space, NamePlain segment) :
    NamePlain (spaceText space) := by
  intro c hMem
  rcases List.mem_flatMap.1 hMem with ⟨segment, hSegment, hIn⟩
  have hDotted : NamePlain (segment ++ ['.']) :=
    (hSpace segment hSegment).append (NamePlain.nil.cons rfl)
  exact hDotted c hIn

theorem mem_joined
    {part : List Char}
    (hPart : part ∈ parts)
    (hMem : c ∈ part) :
    c ∈ joined separator parts := by
  unfold joined
  induction parts with
  | nil => exact absurd hPart List.not_mem_nil
  | cons first parts ih =>
      cases parts with
      | nil =>
          rw [List.intercalate_singleton]
          rw [List.mem_singleton.1 hPart] at hMem
          exact hMem
      | cons next parts =>
          rw [List.intercalate_cons_cons]
          rcases List.mem_cons.1 hPart with rfl | hRest
          · exact List.mem_append_left _ (List.mem_append_left _ hMem)
          · exact List.mem_append_right _ (ih hRest)

/- The segments of a plain name. -/
theorem splitOn_plain
    (hName : NamePlain name)
    (hSegment : segment ∈ name.splitOn '/') :
    NamePlain segment := by
  intro c hMem
  apply hName
  have hJoin : ['/'].intercalate (name.splitOn '/') = name :=
    List.intercalate_splitOn '/'
  rw [← hJoin]
  exact mem_joined hSegment hMem

theorem distributed_encodes
    (hTexts : ∀ text ∈ texts, Encodes text)
    {segments : List (List Char × Nat)}
    (hSegments : ∀ entry ∈ segments, NamePlain entry.1) :
    ∀ part ∈ distributed texts segments, Encodes part := by
  induction segments generalizing texts with
  | nil =>
      intro part hPart
      rw [distributed] at hPart
      exact absurd hPart List.not_mem_nil
  | cons entry rest ih =>
      intro part hPart
      rw [distributed] at hPart
      have hName : Encodes (demangleSegment entry.1) :=
        Encodes.plain (demangleSegment_plain
          (hSegments entry List.mem_cons_self))
      rcases List.mem_cons.1 hPart with rfl | hLater
      · split_ifs
        · exact hName.append (Encodes.braced fun text hText =>
            hTexts text (List.mem_of_mem_take hText))
        · exact hName
      · exact ih (fun text hText =>
          hTexts text (List.mem_of_mem_drop hText))
          (fun e he => hSegments e (List.mem_cons_of_mem _ he)) part
          hLater

theorem namedText_encodes
    (hSpace : ∀ segment ∈ space, NamePlain segment)
    (hName : NamePlain name)
    (segmentArities : List Nat)
    (hTexts : ∀ text ∈ texts, Encodes text) :
    Encodes (namedText space name segmentArities texts) := by
  have hFront := Encodes.plain (spaceText_plain hSpace)
  have hSegment : ∀ segment ∈ name.splitOn '/', NamePlain segment :=
    fun segment hMem => splitOn_plain hName hMem
  unfold namedText
  dsimp only
  split_ifs
  · apply hFront.append
    apply Encodes.dotted
    apply distributed_encodes hTexts
    intro entry hEntry
    exact hSegment entry.1 (List.of_mem_zip hEntry).1
  · apply hFront.append
    apply Encodes.append
    · apply Encodes.dotted
      intro part hPart
      rcases List.mem_map.1 hPart with ⟨segment, hMem, rfl⟩
      exact Encodes.plain (demangleSegment_plain (hSegment segment hMem))
    · split_ifs
      · exact Encodes.nil
      · exact Encodes.braced hTexts

theorem varText_plain
    (index : Nat)
    (isMethod : Bool) :
    NamePlain (varText index isMethod) := by
  cases isMethod with
  | false => exact (natText_plain index).cons rfl
  | true => exact ((natText_plain index).cons rfl).cons rfl

theorem primitiveName_plain
    (p : Primitive) :
    NamePlain (primitiveName p) := by
  cases p <;> exact Text.forall_mem_of_all (by decide)

/- The encoding of a type whose names are plain. -/
theorem typeText_encodes
    {ty : TypeRef}
    (hPlain : PlainType ty) :
    Encodes (typeText ty) := by
  induction ty with
  | Primitive p =>
      rw [typeText]
      exact Encodes.plain (primitiveName_plain p)
  | Var index isMethod =>
      rw [typeText]
      exact Encodes.plain (varText_plain index isMethod)
  | VoidPtr =>
      rw [typeText]
      exact Encodes.plain (Text.forall_mem_of_all (by decide))
  | Array element rank sizes lowerBounds ih =>
      cases hPlain with
      | Array _ _ _ _ hElement =>
          rw [typeText]
          exact (ih hElement).append (Encodes.arraySuffix _ _ _)
  | Ptr pointee ih =>
      cases hPlain with
      | Ptr _ hPointee =>
          rw [typeText]
          exact (ih hPointee).append
            (Encodes.plain (NamePlain.nil.cons rfl))
  | ByRef inner ih =>
      cases hPlain with
      | ByRef _ hInner =>
          rw [typeText]
          exact (ih hInner).append
            (Encodes.plain (NamePlain.nil.cons rfl))
  | Named space name typeArgs segmentArities ih =>
      cases hPlain with
      | Named _ _ _ _ hSpace hName hArgs =>
          rw [typeText, typeTexts_eq]
          apply namedText_encodes hSpace hName
          intro text hText
          rcases List.mem_map.1 hText with ⟨a, ha, rfl⟩
          exact ih a ha (hArgs a ha)

------------------------------------------------------------
-- Cutting texts
------------------------------------------------------------

theorem splitAtFirst_cons
    {before behind : List Char}
    (hBefore : c ∉ before) :
    splitAtFirst c (before ++ c :: behind) = some (before, behind) := by
  have hTake : ∀ a ∈ before, (a != c) = true := by
    intro a ha
    rw [bne_iff_ne]
    rintro rfl
    exact hBefore ha
  unfold splitAtFirst
  rw [if_pos (List.mem_append_right _ List.mem_cons_self),
    List.takeWhile_append_of_pos hTake, List.dropWhile_append_of_pos
      hTake]
  simp

theorem splitAtFirst_none
    {text : List Char} :
    splitAtFirst c text = none ↔ c ∉ text := by
  unfold splitAtFirst
  split_ifs with hMem
  · simp [hMem]
  · simp [hMem]

/- The first such character of a text. -/
theorem exists_first
    {text : List Char}
    (hMem : c ∈ text) :
    ∃ before behind,
      text = before ++ c :: behind ∧ c ∉ before := by
  induction text with
  | nil => exact absurd hMem List.not_mem_nil
  | cons a text ih =>
      by_cases hHere : a = c
      · exact ⟨[], text, by rw [hHere]; rfl, List.not_mem_nil⟩
      · have hRest : c ∈ text := by
          rcases List.mem_cons.1 hMem with rfl | hIn
          · exact absurd rfl hHere
          · exact hIn
        rcases ih hRest with ⟨before, behind, rfl, hBefore⟩
        refine ⟨a :: before, behind, rfl, ?_⟩
        intro hIn
        rcases List.mem_cons.1 hIn with rfl | hIn
        · exact hHere rfl
        · exact hBefore hIn

theorem dimensionsFit_self
    (d : Nat) :
    dimensionsFit d d = true := by
  unfold dimensionsFit
  split_ifs
  · exact beq_self_eq_true d
  · rw [beq_self_eq_true]
    rfl

/- A text that closes its array suffixes fits itself. -/
theorem arraysFit_self
    (hClosed : Closed s) :
    arraysFit s s = true := by
  induction hLength : s.length using Nat.strong_induction_on
    generalizing s with
  | _ n ih =>
      by_cases hMem : '[' ∈ s
      · rcases exists_first hMem with ⟨before, behind, rfl, hBefore⟩
        have hClose := hClosed before behind rfl
        rcases exists_first hClose with ⟨dims, rest, rfl, hDims⟩
        have hRest : Closed rest := by
          have hSplit : before ++ '[' :: (dims ++ ']' :: rest) =
              (before ++ '[' :: dims ++ [']']) ++ rest := by
            simp
          rw [hSplit] at hClosed
          exact hClosed.of_append
        have hShort : rest.length < n := by
          rw [← hLength]
          simp
          omega
        rw [arraysFit.eq_def, splitAtFirst_cons hBefore]
        dsimp only
        rw [splitAtFirst_cons hDims]
        dsimp only
        rw [dimensionsFit_self, ih rest.length hShort hRest rfl]
        simp
      · rw [arraysFit.eq_def, splitAtFirst_none.2 hMem]
        exact beq_self_eq_true s

theorem paramFits_self
    (hClosed : Closed s) :
    paramFits s s = true := by
  rw [paramFits, arraysFit_self hClosed]
  rfl

/- No parenthesis and no tick. -/
def HeadPlain
    (name : List Char) :
    Prop :=
  '(' ∉ name ∧ '\x60' ∉ name

/- A type name of plain names; a name may have its arity behind it. -/
inductive PlainDecl : TypeDocName → Prop
  | top (entity : Entity)
      (hSpace : ∀ segment ∈ entity.space, HeadPlain segment)
      (hName : HeadPlain (demangleSegment entity.name)) :
      PlainDecl (typeDocName entity none)
  | nested (parent : TypeDocName) (hParent : PlainDecl parent)
      (entity : Entity)
      (hName : HeadPlain (demangleSegment entity.name)) :
      PlainDecl (typeDocName entity (some parent))

/- No parenthesis, and no two ticks in a row. -/
structure HeadSafe
    (s : List Char) :
    Prop where
  noParen : '(' ∉ s
  noTicks : behindTicks s = none

theorem behindTicks_cons
    (hRest : behindTicks s = none)
    (hPair : ¬ (c = '\x60' ∧ s.head? = some '\x60')) :
    behindTicks (c :: s) = none := by
  rw [behindTicks, hRest]
  exact if_neg hPair

theorem behindTicks_cons_inv
    (hNone : behindTicks (c :: s) = none) :
    behindTicks s = none ∧
      ¬ (c = '\x60' ∧ s.head? = some '\x60') := by
  rw [behindTicks] at hNone
  cases hRest : behindTicks s with
  | some behind =>
      rw [hRest] at hNone
      cases hNone
  | none =>
      rw [hRest] at hNone
      refine ⟨rfl, ?_⟩
      intro hPair
      rw [if_pos hPair] at hNone
      cases hNone

/- A part without ticks in front. -/
theorem behindTicks_plain
    (hPlain : '\x60' ∉ s)
    (hRest : behindTicks t = none) :
    behindTicks (s ++ t) = none := by
  induction s with
  | nil => exact hRest
  | cons c s ih =>
      apply behindTicks_cons
      · exact ih fun hMem => hPlain (List.mem_cons_of_mem _ hMem)
      · rintro ⟨rfl, -⟩
        exact hPlain List.mem_cons_self

theorem behindTicks_append
    (hFirst : behindTicks s = none)
    (hSecond : behindTicks t = none)
    (hHead : t.head? ≠ some '\x60') :
    behindTicks (s ++ t) = none := by
  induction s with
  | nil => exact hSecond
  | cons c s ih =>
      rcases behindTicks_cons_inv hFirst with ⟨hRest, hPair⟩
      apply behindTicks_cons (ih hRest)
      rintro ⟨hTick, hNext⟩
      cases s with
      | nil => exact hHead hNext
      | cons d s => exact hPair ⟨hTick, hNext⟩

theorem behindTicks_some_append
    {behind : List Char}
    (hSome : behindTicks t = some behind) :
    behindTicks (s ++ t) = some behind := by
  induction s with
  | nil => exact hSome
  | cons c s ih =>
      rw [List.cons_append, behindTicks, ih]

theorem HeadPlain.safe
    (hPlain : HeadPlain s) :
    HeadSafe s where
  noParen := hPlain.1
  noTicks := by
    have hNone := behindTicks_plain (t := []) hPlain.2 rfl
    rw [List.append_nil] at hNone
    exact hNone

theorem HeadSafe.append
    (hFirst : HeadSafe s)
    (hSecond : HeadSafe t)
    (hHead : t.head? ≠ some '\x60') :
    HeadSafe (s ++ t) where
  noParen := by
    intro hMem
    rcases List.mem_append.1 hMem with hLeft | hRight
    · exact hFirst.noParen hLeft
    · exact hSecond.noParen hRight
  noTicks := behindTicks_append hFirst.noTicks hSecond.noTicks hHead

theorem HeadPlain.append
    (hFirst : HeadPlain s)
    (hSecond : HeadPlain t) :
    HeadPlain (s ++ t) := by
  constructor
  · intro hMem
    rcases List.mem_append.1 hMem with hLeft | hRight
    · exact hFirst.1 hLeft
    · exact hSecond.1 hRight
  · intro hMem
    rcases List.mem_append.1 hMem with hLeft | hRight
    · exact hFirst.2 hLeft
    · exact hSecond.2 hRight

theorem natText_head
    (n : Nat) :
    HeadPlain (natText n) :=
  ⟨Text.not_mem_toDigits rfl, Text.not_mem_toDigits rfl⟩

theorem headPlain_dot :
    HeadPlain ['.'] :=
  ⟨by decide, by decide⟩

theorem headPlain_joined
    (hParts : ∀ part ∈ parts, HeadPlain part) :
    HeadPlain (joined '.' parts) := by
  unfold joined
  induction parts with
  | nil => exact ⟨List.not_mem_nil, List.not_mem_nil⟩
  | cons part parts ih =>
      have hHere := hParts part List.mem_cons_self
      have hRest := ih fun p hp => hParts p (List.mem_cons_of_mem _ hp)
      cases parts with
      | nil =>
          rw [List.intercalate_singleton]
          exact hHere
      | cons next parts =>
          rw [List.intercalate_cons_cons]
          exact (hHere.append headPlain_dot).append hRest

/- A plain name with its arity. -/
theorem name_safe
    (hName : HeadPlain name)
    (arity : Nat) :
    HeadSafe (name ++ aritySuffix arity) := by
  have hDigits := (natText_head arity).safe
  unfold aritySuffix
  split_ifs
  · refine ⟨?_, ?_⟩
    · intro hMem
      rcases List.mem_append.1 hMem with hLeft | hRight
      · exact hName.1 hLeft
      · rcases List.mem_cons.1 hRight with hTick | hDigit
        · exact absurd hTick (by decide)
        · exact hDigits.noParen hDigit
    · apply behindTicks_plain hName.2
      apply behindTicks_cons hDigits.noTicks
      rintro ⟨-, hHead⟩
      exact (natText_head arity).2 (List.mem_of_mem_head? hHead)
  · rw [List.append_nil]
    exact hName.safe

/- A dot and what follows it. -/
theorem HeadSafe.dot
    (hSafe : HeadSafe s) :
    HeadSafe ('.' :: s) where
  noParen := by
    intro hMem
    rcases List.mem_cons.1 hMem with hDot | hRest
    · exact absurd hDot (by decide)
    · exact hSafe.noParen hRest
  noTicks := by
    apply behindTicks_cons hSafe.noTicks
    rintro ⟨hTick, -⟩
    exact absurd hTick (by decide)

theorem HeadSafe.joinName
    {leading name : List Char}
    (hLeading : HeadSafe leading)
    (hName : HeadSafe name) :
    HeadSafe (if leading = [] then name else leading ++ '.' :: name) := by
  split_ifs
  · exact hName
  · apply hLeading.append hName.dot
    intro hHead
    cases hHead

theorem PlainDecl.safe
    (hDecl : PlainDecl decl) :
    HeadSafe decl.full := by
  induction hDecl with
  | top entity hSpace hName =>
      exact (headPlain_joined hSpace).safe.joinName (name_safe hName _)
  | nested parent _ entity hName ih =>
      exact ih.joinName (name_safe hName _)

theorem escape_head
    (hName : HeadPlain name) :
    HeadPlain (escapeMemberName name) := by
  have hEscape : ∀ mark : Char, escapeChar mark = mark →
      mark ∉ ['#', '{', '}'] → mark ∉ name →
      mark ∉ escapeMemberName name := by
    intro mark _ hOther hNot hMem
    rcases List.mem_map.1 hMem with ⟨c, hc, hSame⟩
    unfold escapeChar at hSame
    simp only [List.mem_cons, List.not_mem_nil, or_false, not_or]
      at hOther
    split_ifs at hSame
    · exact hOther.1 hSame.symm
    · exact hOther.2.1 hSame.symm
    · exact hOther.2.2 hSame.symm
    · rw [hSame] at hc
      exact hNot hc
  exact ⟨hEscape '(' rfl (by decide) hName.1,
    hEscape '\x60' rfl (by decide) hName.2⟩

theorem memberName_safe
    (hDecl : PlainDecl decl)
    (hName : HeadPlain name)
    {kind : Char}
    (hKind : kind = 'M' ∨ kind = 'P') :
    HeadSafe (memberName kind decl name) := by
  have hFront : HeadPlain [kind, ':'] := by
    rcases hKind with rfl | rfl
    · exact ⟨by decide, by decide⟩
    · exact ⟨by decide, by decide⟩
  have hFull : HeadSafe ([kind, ':'] ++ decl.full) := by
    refine ⟨?_, behindTicks_plain hFront.2 hDecl.safe.noTicks⟩
    intro hMem
    rcases List.mem_append.1 hMem with hLeft | hRight
    · exact hFront.1 hLeft
    · exact hDecl.safe.noParen hRight
  apply hFull.append (escape_head hName).safe.dot
  intro hHead
  cases hHead

/- The arity in a head of a method. -/
theorem behindTicks_head
    (n : Nat) :
    behindTicks (s ++ '\x60' :: '\x60' :: natText n) =
      some (natText n) := by
  apply behindTicks_some_append
  have hDigits := natText_head n
  have hOne : behindTicks ('\x60' :: natText n) = none := by
    apply behindTicks_cons hDigits.safe.noTicks
    rintro ⟨-, hHead⟩
    exact hDigits.2 (List.mem_of_mem_head? hHead)
  rw [behindTicks, hOne]
  exact if_pos ⟨rfl, rfl⟩

variable {w : PointerWidth}

theorem parseUsize_natText
    {n : Nat}
    (hFits : n ≤ w.usizeMax) :
    parseUsize w (natText n) = some n := by
  have hSign : ¬ (natText n).head? = some '+' := by
    intro hHead
    have hMem := List.mem_of_mem_head? hHead
    exact Text.not_mem_toDigits (by decide) hMem
  have hNe : natText n ≠ [] := Nat.toDigits_ne_nil
  have hDigits : (natText n).all isDigit = true := by
    rw [List.all_eq_true]
    intro c hMem
    have hDigit := Text.isDigit_of_mem_toDigits hMem
    unfold isDigit
    unfold Char.isDigit at hDigit
    simp only [Bool.and_eq_true, decide_eq_true_eq] at hDigit ⊢
    exact hDigit
  have hValue : Nat.ofDigitChars 10 (natText n) 0 = n :=
    Nat.ofDigitChars_ten_toDigits
  unfold parseUsize
  rw [if_neg hSign]
  dsimp only
  rw [hValue, if_pos ⟨hNe, hDigits, hFits⟩]

------------------------------------------------------------
-- Keys
------------------------------------------------------------

variable {decl : TypeDocName}

/- What a key of the member starts with. -/
def memberHead
    (decl : TypeDocName) :
    Member w → List Char
  | .Method m => methodHead w decl m
  | .Field f => memberName (if fieldKeysAsProperty decl.kind f then
      'P' else 'F') decl f.name
  | .Property p => memberName 'P' decl p.name
  | .Event e => memberName 'E' decl e.name

/- The encodings of its parameters, one for each. -/
def memberEncodings :
    Member w → Option (List (List Char))
  | .Method m => m.parameters.mapM (paramEnc w)
  | .Property p => p.parameters.mapM fun ip => typeEnc w ip.ty
  | _ => some []

/- A method or a property of plain names; conversion operators are left
   out. -/
inductive PlainMember : Member w → Prop
  | Method (m : MethodLike w)
      (hName : HeadPlain m.name)
      (hTypes : ∀ p ∈ m.parameters, PlainType p.ty.ty)
      (hOperator : isConversionOperator m.name = false) :
      PlainMember (.Method m)
  | Property (p : DocId.Property w)
      (hName : HeadPlain p.name)
      (hTypes : ∀ ip ∈ p.parameters, PlainType ip.ty) :
      PlainMember (.Property p)

theorem mapM_some
    {α : Type}
    {f : α → Option (List Char)}
    {g : α → List Char}
    {l : List α}
    (hEach : ∀ x ∈ l, f x = some (g x)) :
    l.mapM f = some (l.map g) := by
  induction l with
  | nil => rfl
  | cons x l ih =>
      rw [List.mapM_cons, hEach x List.mem_cons_self,
        ih fun y hy => hEach y (List.mem_cons_of_mem _ hy)]
      rfl

def paramText
    (p : Parameter w) :
    List Char :=
  if p.isByref then
    typeText p.ty.ty ++ ['@']
  else
    typeText p.ty.ty

theorem paramEnc_eq
    (p : Parameter w) :
    paramEnc w p = some (paramText p) := by
  rw [paramEnc, typeEnc_eq p.ty.fits, Option.map_some, paramText]

theorem paramText_encodes
    {p : Parameter w}
    (hPlain : PlainType p.ty.ty) :
    Encodes (paramText p) := by
  have hType := typeText_encodes hPlain
  unfold paramText
  split_ifs
  · exact hType.append (Encodes.plain (NamePlain.nil.cons rfl))
  · exact hType

/- The parameters in parentheses, none without parameters. -/
def keyArgs
    (parts : List (List Char)) :
    List Char :=
  if parts = [] then
    []
  else
    parenthesized parts

/- A key is cut into its head and its encodings. -/
theorem splitKey_parts
    (hHead : '(' ∉ head)
    (hParts : ∀ part ∈ parts, Encodes part) :
    splitKey (head ++ keyArgs parts) = some (head, parts) := by
  unfold keyArgs
  by_cases hNone : parts = []
  · rw [if_pos hNone, List.append_nil, splitKey,
      splitAtFirst_none.2 hHead, hNone]
  · have hCut : splitTopLevel (joined ',' parts) = parts :=
      cutLoop_intercalate rfl
        (fun part hMem => (hParts part hMem).solid) hNone
    have hStrip : stripSuffix ')' (joined ',' parts ++ [')']) =
        some (joined ',' parts) := by
      rw [stripSuffix, List.getLast?_concat, if_pos rfl,
        List.dropLast_concat]
    have hOpen : head ++ parenthesized parts =
        head ++ '(' :: (joined ',' parts ++ [')']) :=
      rfl
    rw [if_neg hNone, hOpen, splitKey, splitAtFirst_cons hHead]
    dsimp only
    rw [hStrip, Option.map_some, hCut]

/- A key with as many parameters fits when each of them does. -/
theorem keyFits_own
    {key head : List Char}
    {arity : Nat}
    (hSplit : splitKey key = some (head, parts))
    (hParts : ∀ part ∈ parts, Encodes part)
    (hArity : keyGenericArity w head = arity)
    (hFits : arity ≤ w.usizeMax)
    (isMethod : Bool) :
    keyFits w key parts arity 0 isMethod = some true := by
  have hAdd : checkedAdd w arity 0 = some arity := by
    rw [checkedAdd, Nat.add_zero, if_pos hFits]
  have hAll : ((parts.zip parts).all fun pair =>
      paramFits pair.1 pair.2) = true := by
    rw [List.all_eq_true]
    intro pair hPair
    rw [List.zip_eq_zipWith, List.zipWith_self] at hPair
    rcases List.mem_map.1 hPair with ⟨part, hMem, rfl⟩
    exact paramFits_self (hParts part hMem).closed
  unfold keyFits
  rw [hSplit]
  dsimp only
  rw [hArity, if_neg (Nat.lt_irrefl arity), hAdd, Option.map_some]
  simp only [Nat.lt_irrefl, Nat.sub_self, List.take_zero, ne_eq,
    not_true_eq_false, false_and, if_false, or_self, List.drop_zero,
    hAll]

theorem keyGenericArity_none
    (hNone : behindTicks head = none) :
    keyGenericArity w head = 0 := by
  rw [keyGenericArity, hNone]
  rfl

theorem methodHead_arity
    (hDecl : PlainDecl decl)
    {m : MethodLike w}
    (hName : HeadPlain m.name) :
    '(' ∉ methodHead w decl m ∧
      keyGenericArity w (methodHead w decl m) = m.genericParameters := by
  have hKind : (if m.moduleValue then 'P' else 'M') = 'M' ∨
      (if m.moduleValue then 'P' else 'M') = 'P' := by
    cases m.moduleValue
    · exact .inl rfl
    · exact .inr rfl
  have hSafe := memberName_safe hDecl hName hKind
  unfold methodHead genericArity
  by_cases hZero : m.genericParameters = 0
  · rw [if_pos hZero, List.append_nil, hZero]
    exact ⟨hSafe.noParen, keyGenericArity_none hSafe.noTicks⟩
  · have hFits : m.genericParameters ≤ w.usizeMax :=
      Nat.le_trans m.generic_le
        (Nat.le_of_lt (isizeMax_lt_usizeMax w))
    rw [if_neg hZero]
    refine ⟨?_, ?_⟩
    · intro hMem
      rcases List.mem_append.1 hMem with hLeft | hRight
      · exact hSafe.noParen hLeft
      · rcases List.mem_cons.1 hRight with hTick | hRest
        · exact absurd hTick (by decide)
        · rcases List.mem_cons.1 hRest with hTick | hDigit
          · exact absurd hTick (by decide)
          · exact (natText_head _).1 hDigit
    · rw [keyGenericArity, behindTicks_head, Option.bind_some,
        parseUsize_natText hFits]
      rfl

/- The computed id of a member of plain names comes apart into its head
   and the encodings of its parameters, and fits the member. -/
theorem own_key_fits
    (hDecl : PlainDecl decl)
    {member : Member w}
    (hMember : PlainMember member) :
    ∃ key encodings,
      computedMemberDocId w decl member = some key ∧
        memberEncodings member = some encodings ∧
        splitKey key = some (memberHead decl member, encodings) ∧
        recordedKeyFits w key member .Member 0 = some true := by
  cases hMember with
  | Method m hName hTypes hOperator =>
      rcases methodHead_arity hDecl hName with ⟨hParen, hArity⟩
      have hEncodings : m.parameters.mapM (paramEnc w) =
          some (m.parameters.map paramText) :=
        mapM_some fun p _ => paramEnc_eq p
      have hParts : ∀ part ∈ m.parameters.map paramText,
          Encodes part := by
        intro part hPart
        rcases List.mem_map.1 hPart with ⟨p, hMem, rfl⟩
        exact paramText_encodes (hTypes p hMem)
      have hArgs : argsEnc w m.parameters =
          some (keyArgs (m.parameters.map paramText)) := by
        unfold argsEnc keyArgs
        by_cases hNone : m.parameters = []
        · rw [if_pos hNone, hNone]
          rfl
        · rw [if_neg hNone, hEncodings, Option.map_some,
            if_neg (fun hMap => hNone (List.map_eq_nil_iff.1 hMap))]
      have hSplit := splitKey_parts hParen hParts
      refine ⟨_, _, ?_, hEncodings, hSplit, ?_⟩
      · rw [computedMemberDocId, hArgs, hOperator]
        simp
      · show recordedMethodKeyFits w _ m 0 = some true
        rw [recordedMethodKeyFits, hEncodings, Option.bind_some]
        exact keyFits_own hSplit hParts hArity
          (Nat.le_trans m.generic_le
            (Nat.le_of_lt (isizeMax_lt_usizeMax w))) true
  | Property p hName hTypes =>
      have hKind : 'P' = 'M' ∨ 'P' = 'P' := .inr rfl
      have hSafe := memberName_safe hDecl hName hKind
      have hEncodings : (p.parameters.mapM fun ip => typeEnc w ip.ty) =
          some (p.parameters.map fun ip => typeText ip.ty) :=
        mapM_some fun ip _ => typeEnc_eq ip.fits
      have hParts : ∀ part ∈ p.parameters.map (fun ip => typeText ip.ty),
          Encodes part := by
        intro part hPart
        rcases List.mem_map.1 hPart with ⟨ip, hMem, rfl⟩
        exact typeText_encodes (hTypes ip hMem)
      have hSplit := splitKey_parts hSafe.noParen hParts
      refine ⟨_, _, ?_, hEncodings, hSplit, ?_⟩
      · rw [computedMemberDocId]
        unfold keyArgs
        by_cases hNone : p.parameters = []
        · rw [if_pos hNone, hNone]
          rfl
        · rw [if_neg hNone, hEncodings,
            if_neg (fun hMap => hNone (List.map_eq_nil_iff.1 hMap))]
          rfl
      · rw [recordedKeyFits, hEncodings]
        simp only [Option.bind_eq_bind, Option.bind_some,
          reduceCtorEq, if_false, List.append_nil]
        exact keyFits_own hSplit hParts
          (keyGenericArity_none hSafe.noTicks) (Nat.zero_le _) false

/- `N.Map{System.Int32,N.Box{System.String}}`. -/
def mapType :
    TypeRef :=
  .Named ["N".toList] "Map\x602".toList
    [.Primitive .I4, .Named ["N".toList] "Box\x601".toList
      [.Primitive .String] [1]] [2]

theorem mapType_fits :
    mapType.Fits .w64 := by
  refine .Named _ _ _ _ (by decide) (by decide) ?_
  intro a hMem
  rcases List.mem_cons.1 hMem with rfl | hMem
  · exact .Primitive _
  · cases List.mem_singleton.1 hMem
    refine .Named _ _ _ _ (by decide) (by decide) ?_
    intro b hMem
    cases List.mem_singleton.1 hMem
    exact .Primitive _

theorem mapType_plain :
    PlainType mapType := by
  have hSpace : ∀ segment ∈ ["N".toList], NamePlain segment := by
    intro segment hMem
    cases List.mem_singleton.1 hMem
    simp [NamePlain, markOf]
  refine .Named _ _ _ _ hSpace (by simp [NamePlain, markOf]) ?_
  intro a hMem
  rcases List.mem_cons.1 hMem with rfl | hMem
  · exact .Primitive _
  · cases List.mem_singleton.1 hMem
    refine .Named _ _ _ _ hSpace (by simp [NamePlain, markOf]) ?_
    intro b hMem
    cases List.mem_singleton.1 hMem
    exact .Primitive _

/- `System.Int32[0:,0:]`. -/
def gridType :
    TypeRef :=
  .Array (.Primitive .I4) 2 [] []

/- `M:N.T.Foo``1`, of a map and a reference to a grid. -/
def fooMethod :
    MethodLike .w64 where
  name := "Foo".toList
  genericParameters := 1
  generic_le := by decide
  parameters :=
    [⟨⟨mapType, mapType_fits⟩, false⟩,
      ⟨⟨gridType, .Array _ _ _ _ (.Primitive _)⟩, true⟩]
  returnType := ⟨.Primitive .Void, .Primitive _⟩
  moduleValue := false

def fooDecl :
    TypeDocName :=
  typeDocName ⟨["N".toList], "T".toList, 0, .Class⟩ none

theorem own_key_fits_foo :
    ∃ key encodings,
      computedMemberDocId .w64 fooDecl (.Method fooMethod) = some key ∧
        memberEncodings (.Method fooMethod) = some encodings ∧
        splitKey key =
          some (memberHead fooDecl (.Method fooMethod), encodings) ∧
        recordedKeyFits .w64 key (.Method fooMethod) .Member 0 =
          some true := by
  apply own_key_fits
  · apply PlainDecl.top
    · intro segment hMem
      cases List.mem_singleton.1 hMem
      exact ⟨by decide, by decide⟩
    · exact ⟨by decide, by decide⟩
  · apply PlainMember.Method
    · exact ⟨by decide, by decide⟩
    · intro p hMem
      rcases List.mem_cons.1 hMem with rfl | hMem
      · exact mapType_plain
      · cases List.mem_singleton.1 hMem
        exact .Array _ _ _ _ (.Primitive _)
    · decide

end DocId

end Assembly

end Borzoi
